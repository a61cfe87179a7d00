import LinearTrace.Proofs.MemoryRef
import LinearTrace.Proofs.Vectorize.Collapse
import LinearTrace.Proofs.Words

/-!
# Collapsing guards and the condition they check together

A guard is dropped when another guard compares the same scaled base with the same bound at an
offset that makes it stronger.  So the guards that are kept pass whenever all guards pass.  The
converse needs the words to be in the order of the offsets: where adding the larger offset
overflows and adding the smaller one does not, the guard that is kept may pass and the one
that is dropped may not.
-/

namespace LinearTrace

open List Option GuardCollapse IndexCondition Comparison Opcode LinearTrace.Const IndexTable Fault Words Std.HashMap

variable {earlier position : Nat} {strong : Int64} {final : GuardCollapse} {rest : List Operation}
  {entry : Operation × Nat}

/-! ## Stronger conditions -/

namespace IndexCondition

variable {key : GuardKey} {first second third : Int64}

/-- Upper bounds are stronger at larger offsets, lower bounds at smaller ones. -/
theorem implies_eq_true_iff : (⟨key, first⟩ : IndexCondition).implies second = true ↔
      if key.comparison = .intLt ∨ key.comparison = .intLe then second ≤ first
      else first ≤ second := by
  unfold implies
  split <;> simp_all

theorem implies_trans (upper : (⟨key, first⟩ : IndexCondition).implies second)
    (lower : (⟨key, second⟩ : IndexCondition).implies third) :
    (⟨key, first⟩ : IndexCondition).implies third := by
  rw [implies_eq_true_iff] at upper lower ⊢
  split
  next isUpper =>
    rw [if_pos isUpper] at upper lower
    exact Int64.le_trans lower upper
  next isLower =>
    rw [if_neg isLower] at upper lower
    exact Int64.le_trans upper lower

theorem implies_total (notUpper : ¬ (⟨key, first⟩ : IndexCondition).implies second = true) :
    (⟨key, second⟩ : IndexCondition).implies first := by
  rw [implies_eq_true_iff] at notUpper ⊢
  split
  next isUpper =>
    rw [if_pos isUpper, Int64.not_le] at notUpper
    exact Int64.le_of_lt notUpper
  next isLower =>
    rw [if_neg isLower, Int64.not_le] at notUpper
    exact Int64.le_of_lt notUpper

end IndexCondition

namespace GuardCollapse

variable {op : Operation} {condition : IndexCondition}

section Scan

variable {checks : Nat → IndexCondition → Prop} {state : GuardCollapse} {bound : Nat}

/-- Each key has a strongest guard, which is not dropped, and each dropped guard is implied by the
strongest one of its key.  All are at positions below the bound. -/
structure IsDominated (checks : Nat → IndexCondition → Prop) (bound : Nat)
    (state : GuardCollapse) : Prop where
  strongest : ∀ (key : GuardKey) (offset : Int64) (position : Nat),
    state.strongest[key]? = some (offset, position) →
      checks position ⟨key, offset⟩ ∧ position < bound ∧ position ∉ state.dropped
  dropped : ∀ position ∈ state.dropped, position < bound ∧ ∃ condition offset other,
    checks position condition ∧ state.strongest[condition.key]? = some (offset, other) ∧
      (⟨condition.key, offset⟩ : IndexCondition).implies condition.offset = true

theorem isDominated_empty : IsDominated checks bound {} := by
  refine ⟨fun key offset position found => ?_, fun _ member => absurd member not_mem_nil⟩
  rw [getElem?_empty] at found
  cases found

section

variable (dominated : state.IsDominated checks bound)

include dominated

theorem IsDominated.succ : state.IsDominated checks (bound + 1) := by
  refine ⟨fun key offset position found => ?_, fun position isDropped => ?_⟩
  · obtain ⟨checked, below, isKept⟩ := dominated.strongest key offset position found
    exact ⟨checked, Nat.lt_succ_of_lt below, isKept⟩
  · obtain ⟨below, implied⟩ := dominated.dropped position isDropped
    exact ⟨Nat.lt_succ_of_lt below, implied⟩

theorem IsDominated.begin (checked : checks bound condition)
    (isFirst : state.strongest[condition.key]? = none) :
    IsDominated checks (bound + 1)
      { state with strongest := state.strongest.insert condition.key (condition.offset, bound) } := by
  refine ⟨fun key offset position found => ?_, fun position isDropped => ?_⟩
  · rcases eq_or_getElem?_of_insert found with ⟨rfl, ⟨⟩⟩ | ⟨_, found⟩
    · exact ⟨checked, Nat.lt_succ_self _,
        fun isDropped => Nat.lt_irrefl _ (dominated.dropped bound isDropped).1⟩
    · exact dominated.succ.strongest key offset position found
  obtain ⟨below, dropped, strong, other, wasChecked, isStrongest, implied⟩ :=
    dominated.succ.dropped position isDropped
  refine ⟨below, dropped, strong, other, wasChecked, ?_, implied⟩
  rw [Std.HashMap.getElem?_insert, if_neg]
  · exact isStrongest
  · intro same
    rw [← beq_iff_eq.mp same, isFirst] at isStrongest
    cases isStrongest

theorem IsDominated.replace
    (functional : ∀ position first second, checks position first → checks position second → first =
      second) (checked : checks bound condition)
    (isStrongest : state.strongest[condition.key]? = some (strong, earlier))
    (implied : condition.implies strong) :
    IsDominated checks (bound + 1)
      { strongest := state.strongest.insert condition.key (condition.offset, bound)
        dropped := earlier :: state.dropped } := by
  obtain ⟨wasChecked, below, wasKept⟩ := dominated.strongest _ strong earlier isStrongest
  refine ⟨fun key offset position found => ?_, fun position isDropped => ?_⟩
  · rcases eq_or_getElem?_of_insert found with ⟨rfl, ⟨⟩⟩ | ⟨different, found⟩
    · refine ⟨checked, Nat.lt_succ_self _, fun isDropped => ?_⟩
      rcases mem_cons.mp isDropped with same | isOld
      · exact Nat.lt_irrefl _ (same ▸ below)
      · exact Nat.lt_irrefl _ (dominated.dropped bound isOld).1
    · obtain ⟨otherChecked, otherBelow, otherKept⟩ := dominated.strongest key offset position found
      refine ⟨otherChecked, Nat.lt_succ_of_lt otherBelow, fun isDropped => ?_⟩
      rcases mem_cons.mp isDropped with rfl | isOld
      · -- A position is checked under one key.
        have same := functional _ _ _ wasChecked otherChecked
        exact different (congrArg IndexCondition.key same)
      · exact otherKept isOld
  · rcases mem_cons.mp isDropped with rfl | isOld
    · refine ⟨Nat.lt_succ_of_lt below, ⟨condition.key, strong⟩, condition.offset, bound,
        wasChecked, ?_, implied⟩
      rw [Std.HashMap.getElem?_insert, if_pos (beq_iff_eq.mpr rfl)]
    obtain ⟨oldBelow, dropped, oldStrong, other, oldChecked, wasStrongest, oldImplied⟩ :=
      dominated.dropped position isOld
    by_cases same : condition.key = dropped.key
    · rw [← same] at wasStrongest oldImplied
      cases isStrongest.symm.trans wasStrongest
      refine ⟨Nat.lt_succ_of_lt oldBelow, dropped, condition.offset, bound, oldChecked, ?_,
        same ▸ implies_trans implied oldImplied⟩
      rw [Std.HashMap.getElem?_insert, if_pos (beq_iff_eq.mpr same)]
    · refine ⟨Nat.lt_succ_of_lt oldBelow, dropped, oldStrong, other, oldChecked, ?_, oldImplied⟩
      rw [Std.HashMap.getElem?_insert, if_neg fun equal => same (beq_iff_eq.mp equal)]
      exact wasStrongest

theorem IsDominated.drop (checked : checks bound condition)
    (isStrongest : state.strongest[condition.key]? = some (strong, earlier))
    (notImplied : ¬ condition.implies strong = true) :
    IsDominated checks (bound + 1) { state with dropped := bound :: state.dropped } := by
  refine ⟨fun key offset position found => ?_, fun position isDropped => ?_⟩
  · obtain ⟨otherChecked, otherBelow, otherKept⟩ := dominated.strongest key offset position found
    refine ⟨otherChecked, Nat.lt_succ_of_lt otherBelow, fun isDropped => ?_⟩
    rcases mem_cons.mp isDropped with rfl | isOld
    · exact Nat.lt_irrefl _ otherBelow
    · exact otherKept isOld
  · rcases mem_cons.mp isDropped with rfl | isOld
    · exact ⟨Nat.lt_succ_self _, condition, strong, earlier, checked, isStrongest,
        implies_total notImplied⟩
    · exact dominated.succ.dropped position isOld

theorem IsDominated.consider
    (functional : ∀ position first second, checks position first → checks position second → first =
      second) (checked : checks bound condition) :
    (state.consider condition bound).IsDominated checks (bound + 1) := by
  unfold GuardCollapse.consider
  split
  next isFirst => exact dominated.begin checked isFirst
  rename_i strong earlier isStrongest
  split
  next implied => exact dominated.replace functional checked isStrongest implied
  next notImplied => exact dominated.drop checked isStrongest notImplied

end

variable {ops : List Operation} {indices : IndexTable} {comparisons : Std.HashMap Box Comparison}

/-- The guard at a position checks a condition. -/
def ChecksAt (indices : IndexTable) (comparisons : Std.HashMap Box Comparison)
    (ops : List Operation) (position : Nat) (condition : IndexCondition) : Prop :=
  ∃ op, ops[position]? = some op ∧
    IndexCondition.ofGuard indices comparisons op = .ok (some condition)

theorem eq_of_checksAt (position : Nat) (first second : IndexCondition)
    (firstChecked : ChecksAt indices comparisons ops position first)
    (secondChecked : ChecksAt indices comparisons ops position second) : first = second := by
  obtain ⟨op, found, isFirst⟩ := firstChecked
  obtain ⟨other, otherFound, isSecond⟩ := secondChecked
  cases found.symm.trans otherFound
  cases isFirst.symm.trans isSecond
  rfl

theorem dropped_consider (first second : IndexCondition) (position later : Nat)
    (sameKey : second.key = first.key) (implied : second.implies first.offset) :
    ((({} : GuardCollapse).consider first position).consider second later).dropped = [position] := by
  unfold GuardCollapse.consider
  simp [sameKey, implied]

theorem scan_of_none (isNone : ofGuard indices comparisons op = .ok none) :
    scan indices comparisons position (op :: rest) state =
      scan indices comparisons (position + 1) rest state := by
  rw [scan, isNone]
  rfl

theorem scan_of_some (isSome : ofGuard indices comparisons op = .ok (some condition)) :
    scan indices comparisons position (op :: rest) state =
      scan indices comparisons (position + 1) rest (state.consider condition position) := by
  rw [scan, isSome]
  rfl

theorem IsDominated.scan {front : List Operation}
    (dominated : state.IsDominated (ChecksAt indices comparisons ops) front.length)
    (isOps : ops = front ++ rest)
    (scanned : scan indices comparisons front.length rest state = .ok final) :
    final.IsDominated (ChecksAt indices comparisons ops) ops.length := by
  induction rest generalizing front state with
  | nil =>
    cases scanned
    rwa [isOps, append_nil] at dominated ⊢
  | cons op rest ih =>
    obtain ⟨condition, isCondition, scanned⟩ := bind_eq_ok.mp scanned
    have isNext : ops = (front ++ [op]) ++ rest := by
      rw [isOps, append_assoc]
      rfl
    have isNow : ops[front.length]? = some op := by
      rw [isOps, getElem?_append_right (Nat.le_refl _), Nat.sub_self]
      rfl
    refine ih ?_ isNext (by rw [length_append]; exact scanned)
    rw [length_append]
    cases condition with
    | none => exact dominated.succ
    | some condition => exact dominated.consider eq_of_checksAt ⟨op, isNow, isCondition⟩

/-- For each guard that is dropped, a guard that is not dropped checks a condition that implies
its own. -/
theorem exists_stronger (scanned : scan indices comparisons 0 ops {} = .ok final)
    (isDropped : position ∈ final.dropped) :
    ∃ condition strong other, ChecksAt indices comparisons ops position condition ∧
      ChecksAt indices comparisons ops other strong ∧ other ∉ final.dropped ∧
      strong.key = condition.key ∧ strong.implies condition.offset := by
  have dominated : final.IsDominated (ChecksAt indices comparisons ops) ops.length :=
    (isDominated_empty).scan (show ops = [] ++ ops from rfl) scanned
  obtain ⟨_, condition, offset, other, checked, isStrongest, implied⟩ :=
    dominated.dropped position isDropped
  obtain ⟨otherChecked, _, isKept⟩ := dominated.strongest _ offset other isStrongest
  exact ⟨condition, ⟨condition.key, offset⟩, other, checked, otherChecked, isKept, rfl, implied⟩

end Scan

end GuardCollapse

/-! ## What a guard checks -/

theorem Fault.foldlM_invariant {σ α : Type} {step : σ → α → Except Fault σ} {items : List α}
    {start final : σ} (invariant : σ → Prop) (holds : invariant start)
    (keeps : ∀ item ∈ items, ∀ state, invariant state → ∀ next, step state item = .ok next →
      invariant next)
    (folded : items.foldlM step start = .ok final) : invariant final := by
  induction items generalizing start with
  | nil =>
    cases folded
    exact holds
  | cons item rest ih =>
    rw [foldlM_cons] at folded
    obtain ⟨next, stepped, folded⟩ := bind_eq_ok.mp folded
    exact ih (keeps item mem_cons_self start holds next stepped)
      (fun other isOther => keeps other (mem_cons_of_mem _ isOther)) folded

theorem Operation.getElem?_of_arg_eq_ok {op : Operation} {value : Value}
    (read : op.arg position = .ok value) : op.args[position]? = some value := by
  unfold arg at read
  split at read
  · cases read
    assumption
  · cases read

namespace Opcode

variable {opcode other : Opcode}

theorem isOrder_of_partner (isOrder : opcode.isOrder)
    (isPartner : opcode.inverse? = some other ∨ opcode.reflex? = some other) : other.isOrder := by
  cases opcode with
  | intLt | intLe | intGt | intGe =>
    rcases isPartner with isPartner | isPartner <;> cases isPartner <;> rfl
  | _ => cases isOrder

theorem isIntegral_of_isOrder (isOrder : opcode.isOrder) : opcode.isIntegral := by
  cases opcode with
  | intLt | intLe | intGt | intGe => rfl
  | _ => cases isOrder

theorem isPure_of_isGuard (isGuard : opcode.isGuard) : opcode.isPure = false := by
  revert isGuard
  cases opcode <;> decide

theorem isOrder_of_isGuard (isGuard : opcode.isGuard) : opcode.isOrder = false := by
  revert isGuard
  cases opcode <;> decide

theorem exists_truth_of_isOrder (isOrder : opcode.isOrder) {args : List Const} {x y : Int64}
    (isLeft : args[0]? = some (.int x)) (isRight : args[1]? = some (.int y)) :
    ∃ verdict, opcode.evaluate args = some (.truth verdict) ∧
      opcode.evaluate [.int x, .int y] = some (.truth verdict) := by
  have decided : ∀ function : Int64 → Int64 → Option Const, onWords args function = function x y := by
    intro function
    unfold onWords wordAt
    rw [isLeft, isRight]
    rfl
  cases opcode with
  | intLt => exact ⟨_, decided _, rfl⟩
  | intLe => exact ⟨_, decided _, rfl⟩
  | intGt => exact ⟨_, decided _, rfl⟩
  | intGe => exact ⟨_, decided _, rfl⟩
  | _ => cases isOrder

end Opcode

namespace Comparison

variable {comparison other : Comparison}

/-- The comparison is true of the words. -/
def HoldsIn (words : Words) (comparison : Comparison) : Prop :=
  comparison.opcode.evaluate [.int (words.read comparison.left),
    .int (words.read comparison.right)] = some (.truth true)

theorem holdsIn_negate? (words : Words) (isOrder : comparison.opcode.isOrder)
    (isNegation : comparison.negate? = some other) :
    other.opcode.isOrder ∧ (other.HoldsIn words ↔ ¬ comparison.HoldsIn words) := by
  obtain ⟨opcode, isInverse, rfl⟩ := map_eq_some_iff.mp isNegation
  refine ⟨isOrder_of_partner isOrder (.inl isInverse), ?_⟩
  obtain ⟨verdict, evaluated, _⟩ := exists_truth_of_isOrder isOrder
    (show [int (words.read comparison.left), .int (words.read comparison.right)][0]? = _
      from rfl) rfl
  obtain ⟨_, same, opposite⟩ := evaluate_inverse isInverse evaluated
  cases truth_inj same
  unfold HoldsIn
  rw [evaluated, opposite]
  cases verdict <;> decide

theorem holdsIn_flip? (words : Words) (isOrder : comparison.opcode.isOrder)
    (isFlipped : comparison.flip? = some other) :
    other.opcode.isOrder ∧ (other.HoldsIn words ↔ comparison.HoldsIn words) := by
  obtain ⟨opcode, isReflex, rfl⟩ := map_eq_some_iff.mp isFlipped
  refine ⟨isOrder_of_partner isOrder (.inr isReflex), ?_⟩
  unfold HoldsIn
  rw [evaluate_reflex (isIntegral_of_isOrder isOrder) isReflex]

theorem holdsIn_orient? (words : Words) {indices : IndexTable} (isOrder : comparison.opcode.isOrder)
    (isOriented : comparison.orient? indices = some other) :
    other.opcode.isOrder ∧ (other.HoldsIn words ↔ comparison.HoldsIn words) := by
  unfold orient? at isOriented
  split at isOriented
  · exact holdsIn_flip? words isOrder isOriented
  · cases isOriented
    exact ⟨isOrder, Iff.rfl⟩

/-- The comparison is that of an operation of the list with the given result. -/
def IsComputed (ops : List Operation) (box : Box) (comparison : Comparison) : Prop :=
  ∃ op ∈ ops, op.result = some box ∧ op.opcode = comparison.opcode ∧ op.opcode.isOrder = true ∧
    op.args[0]? = some comparison.left ∧ op.args[1]? = some comparison.right

/-- Every entry of the table is a comparison of the list. -/
def AllComputed (ops : List Operation) (comparisons : Std.HashMap Box Comparison) : Prop :=
  ∀ (box : Box) (comparison : Comparison), comparisons[box]? = some comparison →
    comparison.IsComputed ops box

theorem allComputed_table {ops : List Operation} {comparisons : Std.HashMap Box Comparison}
    (isTable : table ops = .ok comparisons) : AllComputed ops comparisons := by
  refine foldlM_invariant (AllComputed ops) (fun box comparison found => ?_)
    (fun op isOp table known extended stepped box comparison found => ?_) isTable
  · rw [getElem?_empty] at found
    cases found
  split at stepped
  next result isOrder isResult =>
    obtain ⟨left, isLeft, stepped⟩ := bind_eq_ok.mp stepped
    obtain ⟨right, isRight, stepped⟩ := bind_eq_ok.mp stepped
    cases stepped
    rcases eq_or_getElem?_of_insert found with ⟨rfl, rfl⟩ | ⟨_, found⟩
    · exact ⟨op, isOp, isResult, rfl, isOrder, Operation.getElem?_of_arg_eq_ok isLeft,
        Operation.getElem?_of_arg_eq_ok isRight⟩
    · exact known box comparison found
  · cases stepped
    exact known box comparison found

end Comparison

namespace IndexCondition

variable {words : Words} {condition : IndexCondition}

def index (condition : IndexCondition) : IndexVar :=
  ⟨some condition.key.base, condition.key.multiplier, condition.key.divisor, condition.offset⟩

def word (words : Words) (condition : IndexCondition) : Int64 :=
  condition.index.value words.valuation

/-- The condition is true of the words. -/
def HoldsIn (words : Words) (condition : IndexCondition) : Prop :=
  condition.key.comparison.evaluate [.int (condition.word words),
    .int (words.read condition.key.bound)] = some (.truth true)

theorem holdsIn_of_condition? {indices : IndexTable} {comparison : Comparison}
    (isOrder : comparison.opcode.isOrder) (exact : indices.IsExact words.valuation)
    (isCondition : comparison.condition? indices = some condition) :
    condition.key.comparison.isOrder ∧ (condition.HoldsIn words ↔ comparison.HoldsIn words) := by
  obtain ⟨oriented, isOriented, isCondition⟩ := bind_eq_some_iff.mp isCondition
  obtain ⟨index, isIndex, isCondition⟩ := bind_eq_some_iff.mp isCondition
  obtain ⟨base, isBase, isCondition⟩ := bind_eq_some_iff.mp isCondition
  cases isCondition
  obtain ⟨orientedOrder, same⟩ := holdsIn_orient? words isOrder isOriented
  refine ⟨orientedOrder, ?_⟩
  rw [← same]
  have value : index.value words.valuation = words.read oriented.left := by
    apply exact.value_ofValue? isIndex
    cases left : oriented.left with
    | box box => rfl
    | const literal =>
      rw [left] at isIndex
      obtain ⟨known, isKnown, rfl⟩ := map_eq_some_iff.mp isIndex
      cases isBase
  have isIndex : (⟨some base, index.multiplier, index.divisor, index.offset⟩ : IndexVar) = index := by
    rw [← isBase]
  unfold HoldsIn word IndexCondition.index Comparison.HoldsIn
  rw [isIndex, value]

theorem holdsIn_of_implies {strong : IndexCondition} (isOrder : condition.key.comparison.isOrder)
    (sameKey : strong.key = condition.key) (implied : strong.implies condition.offset)
    (upward : condition.offset ≤ strong.offset → condition.word words ≤ strong.word words)
    (downward : strong.offset ≤ condition.offset → strong.word words ≤ condition.word words)
    (holds : strong.HoldsIn words) : condition.HoldsIn words := by
  obtain ⟨key, offset⟩ := condition
  obtain ⟨_, strongOffset⟩ := strong
  cases sameKey
  rw [implies_eq_true_iff] at implied
  unfold HoldsIn at holds ⊢
  cases comparison : key.comparison with
  | intLt =>
    rw [comparison, if_pos (.inl rfl)] at implied
    rw [comparison] at holds
    have below := of_decide_eq_true (truth_inj (some.inj holds))
    exact congrArg (some ∘ truth) (decide_eq_true (Int64.lt_of_le_of_lt (upward implied) below))
  | intLe =>
    rw [comparison, if_pos (.inr rfl)] at implied
    rw [comparison] at holds
    have atMost := of_decide_eq_true (truth_inj (some.inj holds))
    exact congrArg (some ∘ truth) (decide_eq_true (Int64.le_trans (upward implied) atMost))
  | intGt =>
    rw [comparison, if_neg (by decide)] at implied
    rw [comparison] at holds
    have above := of_decide_eq_true (truth_inj (some.inj holds))
    exact congrArg (some ∘ truth) (decide_eq_true (Int64.lt_of_lt_of_le above (downward implied)))
  | intGe =>
    rw [comparison, if_neg (by decide)] at implied
    rw [comparison] at holds
    have atLeast := of_decide_eq_true (truth_inj (some.inj holds))
    exact congrArg (some ∘ truth) (decide_eq_true (Int64.le_trans atLeast (downward implied)))
  | _ =>
    rw [comparison] at isOrder
    cases isOrder

variable {indices : IndexTable} {comparisons : Std.HashMap Box Comparison} {op : Operation}

theorem cases_ofGuard (isCondition : ofGuard indices comparisons op = .ok (some condition)) :
    ∃ box comparison checked, op.args[0]? = some (.box box) ∧
      comparisons[box]? = some comparison ∧ checked.condition? indices = some condition ∧
      (op.opcode = .guardTrue ∧ checked = comparison ∨
        op.opcode = .guardFalse ∧ comparison.negate? = some checked) := by
  unfold ofGuard at isCondition
  dsimp only at isCondition
  split at isCondition
  next isConsidered =>
    obtain ⟨value, isArg, isCondition⟩ := bind_eq_ok.mp isCondition
    obtain ⟨box, isBox, isCondition⟩ := bind_eq_some_iff.mp (Except.ok.inj isCondition)
    obtain ⟨comparison, found, isCondition⟩ := bind_eq_some_iff.mp isCondition
    have isFirst := Operation.getElem?_of_arg_eq_ok isArg
    rw [Value.mem_box?.mp isBox] at isFirst
    rw [Bool.and_eq_true, Bool.or_eq_true, beq_iff_eq, beq_iff_eq] at isConsidered
    rcases isConsidered.2 with isTrue | isFalse
    · rw [if_pos (beq_iff_eq.mpr isTrue)] at isCondition
      exact ⟨box, comparison, comparison, isFirst, found, isCondition, .inl ⟨isTrue, rfl⟩⟩
    · rw [if_neg (by rw [isFalse]; decide)] at isCondition
      obtain ⟨checked, isChecked, isCondition⟩ := bind_eq_some_iff.mp isCondition
      exact ⟨box, comparison, checked, isFirst, found, isCondition, .inr ⟨isFalse, isChecked⟩⟩
  · cases isCondition

end IndexCondition

namespace Words

variable {words : Words} {ops : List Operation} {op : Operation} {box : Box}
  {verdict : Operation → Bool}

theorem passes_guard {word : Int64}
    (isGuard : op.opcode = .guardTrue ∧ word = 1 ∨ op.opcode = .guardFalse ∧ word = 0)
    (isFirst : op.args[0]? = some (.box box)) :
    words.passes verdict op = true ↔ words box = word := by
  unfold passes
  rcases isGuard with ⟨isGuard, rfl⟩ | ⟨isGuard, rfl⟩ <;>
    simp [isGuard, check, getElem?_operands isFirst, read]

theorem settle_of_isComputed (words : Words) {comparison : Comparison} (ordered : IsOrdered ops)
    (computed : comparison.IsComputed ops box) :
    comparison.opcode.isOrder ∧ (words.settle ops box = 1 ∧ comparison.HoldsIn (words.settle ops) ∨
        words.settle ops box = 0 ∧ ¬ comparison.HoldsIn (words.settle ops)) := by
  obtain ⟨op, isOp, isResult, opcode, isOrder, isLeft, isRight⟩ := computed
  refine ⟨opcode ▸ isOrder, ?_⟩
  obtain ⟨verdict, evaluated, decided⟩ := exists_truth_of_isOrder isOrder
    (getElem?_operands isLeft) (getElem?_operands isRight)
  have value := settle_of_result words ordered isOp isResult
  rw [word?_of_evaluate evaluated, getD_some] at value
  unfold Comparison.HoldsIn
  rw [value, ← opcode, decided]
  cases verdict <;> decide

/-- Over an exact table a guard passes just when its condition is true. -/
theorem passes_iff_holdsIn (verdict : Operation → Bool) {comparisons : Std.HashMap Box Comparison}
    {condition : IndexCondition} (ordered : IsOrdered ops)
    (isTable : table ops = .ok comparisons)
    (exact : (ofOperations ops).IsExact (words.settle ops).valuation)
    (isCondition : ofGuard (.ofOperations ops) comparisons op = .ok (some condition))
    :
    condition.key.comparison.isOrder ∧
      ((words.settle ops).passes verdict op = true ↔ condition.HoldsIn (words.settle ops)) := by
  obtain ⟨box, comparison, checked, isFirst, found, isCondition, form⟩ :=
    cases_ofGuard isCondition
  obtain ⟨isOrder, settled⟩ :=
    settle_of_isComputed words ordered (allComputed_table isTable box comparison found)
  obtain ⟨isGuard, rfl⟩ | ⟨isGuard, isNegation⟩ := form
  · obtain ⟨conditionOrder, same⟩ :=
      holdsIn_of_condition? isOrder exact isCondition
    refine ⟨conditionOrder, ?_⟩
    rw [passes_guard (.inl ⟨isGuard, rfl⟩) isFirst, same]
    rcases settled with ⟨isOne, holds⟩ | ⟨isZero, fails⟩
    · simp only [isOne, holds]
    · simp only [isZero, fails, iff_false]
      decide
  · obtain ⟨checkedOrder, opposite⟩ :=
      holdsIn_negate? (words.settle ops) isOrder isNegation
    obtain ⟨conditionOrder, same⟩ :=
      holdsIn_of_condition? checkedOrder exact isCondition
    refine ⟨conditionOrder, ?_⟩
    rw [passes_guard (.inr ⟨isGuard, rfl⟩) isFirst, same, opposite]
    rcases settled with ⟨isOne, holds⟩ | ⟨isZero, fails⟩
    · simp only [isOne, holds, not_true_eq_false, iff_false]
      decide
    · simp only [isZero, fails, not_false_eq_true]

end Words

/-! ## What is kept -/

theorem IndexTable.exists_derive? {ops : List Operation} {table : IndexTable} {box : Box}
    {index : IndexVar} (found : (ops.foldl extend table)[box]? = some index) :
    table[box]? = some index ∨ ∃ op ∈ ops, op.result = some box ∧
      ∃ earlier : IndexTable, earlier.derive? op = some index := by
  induction ops generalizing table with
  | nil => exact .inl found
  | cons op rest ih =>
    rcases ih found with extended | ⟨other, isOther, derived⟩
    · rcases getElem?_extend_eq_some extended with ⟨isResult, derived⟩ | old
      · exact .inr ⟨op, mem_cons_self, isResult, table, derived⟩
      · exact .inl old
    · exact .inr ⟨other, mem_cons_of_mem _ isOther, derived⟩

namespace GuardCollapse

variable {ops kept : List Operation} {op : Operation} {words : Words} {free : List Box}
  {keep : Operation × Nat → Bool} {verdict : Operation → Bool}

variable {box : Box} {comparisons : Std.HashMap Box Comparison} {state : GuardCollapse}

/-- Index arithmetic that starts from the base computes the same word. -/
theorem word?_adapt (ordered : Words.IsOrdered ops) (isOp : op ∈ ops) :
    (words.settle ops).word? (adapt (.ofOperations ops) op) = (words.settle ops).word? op := by
  rcases adapt_eq (.ofOperations ops) op with
    same | ⟨_, result, index, base, isResult, found, isBase, isUnit, isRecoded⟩
  · rw [same]
  obtain old | ⟨other, isOther, otherResult, table, derived⟩ := exists_derive? found
  · rw [getElem?_empty] at old
    cases old
  cases ordered.eq_of_result isOp isOther isResult otherResult
  obtain ⟨word, evaluated, _⟩ := evaluate_of_derive? (words.settle ops) derived
  have computed := word?_of_evaluate evaluated
  have value := settle_of_result words ordered isOp isResult
  rw [computed, getD_some, settle_of_unit ordered found isBase isUnit] at value
  rw [computed, ← value, isRecoded]
  apply word?_of_evaluate
  change some (int (_ + read _ (.const (.int index.offset)))) = _
  rw [read_int]
  rfl

theorem mem_keepBy {entries : List (Operation × Nat)} :
    op ∈ keepBy keep ops entries ↔ ∃ entry ∈ entries, keep entry ∧
      adapt (.ofOperations ops) entry.1 = op := by
  unfold keepBy
  simp only [List.mem_map, mem_filter, and_assoc]

theorem isOrdered_keepBy (inScope : ScopedFrom free ops) :
    Words.IsOrdered (keepBy keep ops ops.zipIdx) := by
  have adapted : ScopedFrom free (ops.map (adapt (.ofOperations ops))) := by
    refine scopedFrom_adapt inScope (fun box index found => ?_) rfl
    rw [getElem?_empty] at found
    cases found
  refine (isOrdered_of_scopedFrom adapted).sublist ?_
  have whole : ops.map (adapt (.ofOperations ops)) =
      ops.zipIdx.map fun entry => adapt (.ofOperations ops) entry.1 := by
    rw [← zipIdx_map_fst 0 ops, List.map_map, zipIdx_map_fst]
    rfl
  rw [whole]
  exact filter_sublist.map _

/-- What is read and no longer made was made by a guard. -/
theorem isGuard_of_unmade {reader maker : Operation} (mayKeep : MayKeep keep ops)
    (isReader : reader ∈ keepBy keep ops ops.zipIdx) (isUse : .box box ∈ reader.uses)
    (unmade : ∀ other ∈ keepBy keep ops ops.zipIdx, other.result ≠ some box)
    (isMaker : maker ∈ ops) (isResult : maker.result = some box) : maker.isGuard := by
  obtain ⟨position, found⟩ := mem_iff_getElem?.mp isMaker
  have isEntry : (maker, position) ∈ ops.zipIdx := mem_zipIdx_iff_getElem?.mpr found
  have isGone : keep (maker, position) = false := by
    refine Bool.eq_false_iff.mpr fun isKept => ?_
    exact unmade _ (mem_keepBy.mpr ⟨_, isEntry, isKept, rfl⟩) (by rw [result_adapt, isResult])
  rcases mayKeep _ isEntry isGone with isGuard | ⟨result, hasResult, unread⟩
  · exact isGuard
  · cases isResult.symm.trans hasResult
    obtain ⟨entry, isOther, isKept, rfl⟩ := mem_keepBy.mp isReader
    exact absurd isUse (unread entry isOther isKept)

/-- What is kept reads the words that it read before. -/
theorem settle_keepBy (inScope : ScopedFrom free ops) (mayKeep : MayKeep keep ops)
    (isOp : op ∈ keepBy keep ops ops.zipIdx) (isArg : .box box ∈ op.args) :
    words.settle (keepBy keep ops ops.zipIdx) box = words.settle ops box := by
  have ordered := isOrdered_of_scopedFrom inScope
  refine settle_eq_of_arg (isOrdered_keepBy inScope) ?_ ?_ isOp isArg
  · intro other isOther made isResult
    obtain ⟨entry, isEntry, _, rfl⟩ := mem_keepBy.mp isOther
    have member := fst_mem_of_mem_zipIdx isEntry
    rw [result_adapt] at isResult
    rw [word?_adapt ordered member]
    exact settle_of_result words ordered member isResult
  · intro reader isReader read isRead notKept
    by_cases made : ∃ maker ∈ ops, maker.result = some read
    · obtain ⟨maker, isMaker, isResult⟩ := made
      have isGuard := isGuard_of_unmade mayKeep isReader (mem_append_left _ isRead) notKept isMaker
        isResult
      -- A guard leaves its result, if it has one, as it was.
      rw [settle_of_result words ordered isMaker isResult, word?_of_isGuard isGuard,
        getD_none]
    · exact settle_of_not_result fun maker isMaker isResult => made ⟨maker, isMaker, isResult⟩

theorem allPass_keepBy (inScope : ScopedFrom free ops) (mayKeep : MayKeep keep ops) :
    words.AllPass verdict (keepBy keep ops ops.zipIdx) ↔
      ∀ entry ∈ ops.zipIdx, keep entry → entry.1.isGuard →
        (words.settle ops).passes verdict entry.1 := by
  have unchanged : ∀ op : Operation, op.isGuard = true → adapt (.ofOperations ops) op = op :=
    fun op isGuard => adapt_of_not_isPure (isPure_of_isGuard isGuard)
  have samePasses : ∀ entry ∈ ops.zipIdx, keep entry = true → entry.1.isGuard = true →
      (words.settle (keepBy keep ops ops.zipIdx)).passes verdict entry.1 =
        (words.settle ops).passes verdict entry.1 := by
    intro entry isEntry isKept isGuard
    refine passes_congr fun box isArg => settle_keepBy inScope mayKeep ?_ isArg
    exact mem_keepBy.mpr ⟨entry, isEntry, isKept, unchanged entry.1 isGuard⟩
  constructor
  · intro allPass entry isEntry isKept isGuard
    rw [← samePasses entry isEntry isKept isGuard]
    exact allPass entry.1
      (mem_keepBy.mpr ⟨entry, isEntry, isKept, unchanged entry.1 isGuard⟩) isGuard
  intro each op isOp isGuard
  obtain ⟨entry, isEntry, isKept, isAdapted⟩ := mem_keepBy.mp isOp
  have isEntryGuard : entry.1.isGuard = true := by
    rcases adapt_eq (.ofOperations ops) entry.1 with
      same | ⟨_, _, _, _, _, _, _, _, isRecoded⟩
    · rwa [← isAdapted, same] at isGuard
    · rw [← isAdapted, isRecoded] at isGuard
      cases isGuard
  rw [unchanged entry.1 isEntryGuard] at isAdapted
  rw [← isAdapted, samePasses entry isEntry isKept isEntryGuard]
  exact each entry isEntry isKept isEntryGuard

/-- The condition of a dropped guard is the result of a comparison. -/
theorem exists_order_of_dropped (isTable : table ops = .ok comparisons)
    (scanned : scan (.ofOperations ops) comparisons 0 ops {} = .ok state)
    (isEntry : entry ∈ ops.zipIdx) (isDropped : entry.2 ∈ state.dropped)
    (isCondition : entry.1.args.head?.bind Value.box? = some box) :
    ∃ op ∈ ops, op.result = some box ∧ op.opcode.isOrder := by
  obtain ⟨_, _, _, ⟨op, found, checked⟩, _⟩ := exists_stronger scanned isDropped
  rw [mem_zipIdx_iff_getElem?.mp isEntry] at found
  cases found
  obtain ⟨other, comparison, _, isFirst, isComparison, _⟩ := cases_ofGuard checked
  rw [List.head?_eq_getElem?, isFirst] at isCondition
  cases isCondition
  obtain ⟨maker, isMaker, isResult, _, isOrder, _⟩ :=
    allComputed_table isTable _ comparison isComparison
  exact ⟨maker, isMaker, isResult, isOrder⟩

theorem LeavesOut.mem_dropped (leaves : state.LeavesOut keep ops) (ordered : Words.IsOrdered ops)
    (isTable : table ops = .ok comparisons)
    (scanned : scan (.ofOperations ops) comparisons 0 ops {} = .ok state) {entry : Operation × Nat}
    (isEntry : entry ∈ ops.zipIdx) (isGone : keep entry = false) (isGuard : entry.1.isGuard) :
    entry.2 ∈ state.dropped := by
  rcases leaves entry isEntry isGone with isDropped | ⟨box, isResult, ⟨gone, isOther, dropped, reads⟩, _⟩
  · exact isDropped
  obtain ⟨maker, isMaker, makes, isOrder⟩ :=
    exists_order_of_dropped isTable scanned isOther dropped reads
  cases ordered.eq_of_result isMaker (fst_mem_of_mem_zipIdx isEntry) makes isResult
  exact absurd isOrder (Bool.eq_false_iff.mp (isOrder_of_isGuard isGuard))

/-- The conditions that are checked by guards which resume at the loop header. -/
def conditions (ops : List Operation) : List IndexCondition :=
  match Comparison.table ops with
  | .ok comparisons => ops.filterMap fun op =>
    (IndexCondition.ofGuard (.ofOperations ops) comparisons op).toOption.join
  | .error _ => []

theorem mem_conditions {condition : IndexCondition} (isTable : table ops = .ok comparisons)
    (checked : ChecksAt (.ofOperations ops) comparisons ops position condition) :
    condition ∈ conditions ops := by
  obtain ⟨op, found, isCondition⟩ := checked
  unfold conditions
  rw [isTable]
  refine mem_filterMap.mpr ⟨op, mem_of_getElem? found, ?_⟩
  rw [isCondition]
  rfl

/-- Of two conditions with one key, the one with the larger offset compares the larger word. -/
def KeepsOrder (ops : List Operation) (words : Words) : Prop :=
  ∀ first ∈ conditions ops, ∀ second ∈ conditions ops, first.key = second.key →
    first.offset ≤ second.offset → first.word words ≤ second.word words

instance (ops : List Operation) (words : Words) : Decidable (KeepsOrder ops words) :=
  inferInstanceAs (Decidable (∀ first ∈ conditions ops, ∀ second ∈ conditions ops, _ → _ → _))

/-- Guards that are kept pass when all guards pass.  They check as much as all guards together
where every entry of the index table is the word in its box, which needs the tracked products and
quotients to keep their form, and where the words compared are in the order of their offsets. -/
theorem allPass_collapse {count : Nat} (inScope : ScopedFrom free ops)
    (collapsed : collapse ops = .ok (kept, count)) (words : Words) (verdict : Operation → Bool) :
    (words.AllPass verdict ops → words.AllPass verdict kept) ∧
      ((∀ op ∈ ops, op.opcode ≠ .intFloorDiv) ∨
          IndexTable.IsRegularFrom (words.settle ops).valuation ∅ ops →
        KeepsOrder ops (words.settle ops) →
        (words.AllPass verdict kept ↔ words.AllPass verdict ops)) := by
  have ordered := Words.isOrdered_of_scopedFrom inScope
  obtain ⟨comparisons, state, keep, isTable, scanned, rfl, leaves⟩ := exists_scan collapsed
  rw [allPass_keepBy inScope (leaves.mayKeep scanned)]
  have weaker : words.AllPass verdict ops → ∀ entry ∈ ops.zipIdx, keep entry = true →
      entry.1.isGuard = true → (words.settle ops).passes verdict entry.1 = true :=
    fun allPass entry isEntry _ isGuard =>
      allPass entry.1 (List.fst_mem_of_mem_zipIdx isEntry) isGuard
  refine ⟨weaker, fun regular inOrder => ⟨fun keptPass op isOp isGuard => ?_, weaker⟩⟩
  obtain ⟨position, found⟩ := List.mem_iff_getElem?.mp isOp
  have isEntry : (op, position) ∈ ops.zipIdx := List.mem_zipIdx_iff_getElem?.mpr found
  cases isKept : keep (op, position) with
  | true => exact keptPass _ isEntry isKept isGuard
  | false =>
    have isDropped := leaves.mem_dropped ordered isTable scanned isEntry isKept isGuard
    obtain ⟨condition, strong, other, checksOp, checksStrong, otherKept, sameKey, implied⟩ :=
      exists_stronger scanned isDropped
    have isCondition := mem_conditions isTable checksOp
    have isStrong := mem_conditions isTable checksStrong
    obtain ⟨_, isFound, checked⟩ := checksOp
    obtain ⟨guard, otherFound, strongChecked⟩ := checksStrong
    cases found.symm.trans isFound
    have isGuardEntry : (guard, other) ∈ ops.zipIdx :=
      List.mem_zipIdx_iff_getElem?.mpr otherFound
    have strongKept : keep (guard, other) = true := by
      refine Bool.eq_true_of_not_eq_false fun isGone => otherKept ?_
      exact leaves.mem_dropped ordered isTable scanned isGuardEntry isGone
        (isGuard_of_ofGuard strongChecked)
    have exact : (IndexTable.ofOperations ops).IsExact (words.settle ops).valuation := by
      refine IndexTable.isExact_of_tracks (IndexTable.isExact_empty _)
        (Words.tracks_settle words ordered) ?_
      obtain noQuotient | keepsForm := regular
      · exact IndexTable.isRegularFrom_of_noQuotient (fun box index found => by simp at found)
          noQuotient
      · exact keepsForm
    have strongHolds := (Words.passes_iff_holdsIn verdict ordered isTable exact strongChecked).2.mp
      (keptPass _ isGuardEntry strongKept (isGuard_of_ofGuard strongChecked))
    obtain ⟨isOrder, passes⟩ := Words.passes_iff_holdsIn verdict ordered isTable exact checked
    rw [passes]
    exact IndexCondition.holdsIn_of_implies isOrder sameKey implied
      (inOrder condition isCondition strong isStrong sameKey.symm)
      (inOrder strong isStrong condition isCondition sameKey) strongHolds

end GuardCollapse

/-- Loops that compare two words computed from an index with one bound. -/
def IndexGuards.index : Box := ⟨0, .int⟩

namespace IndexGuards

def bound : Box := ⟨1, .int⟩

def header : List Value := [.box index, .box bound]

def label : Operation := { opcode := .label, args := header }

def box (id : Nat) : Box := ⟨id, .int⟩

def withWord (opcode : Opcode) (operand : Box) (word : Int64) (result : Nat) : Operation :=
  { opcode := opcode, args := [.box operand, .int word], result := some (box result) }

def isBelow (left result : Nat) : Operation :=
  { opcode := .intLt, args := [.box (box left), .box bound], result := some (box result) }

def guardTrue (condition : Nat) : Operation :=
  { opcode := .guardTrue, args := [.box (box condition)],
    descriptor := some (.guard .atLoopHeader), snapshot := some (.root header) }

def jump : Operation := { opcode := .jump, args := header }

/-- The index plus one, and then plus two, is below the bound.  The loop goes on with the box that
the first guard defines, if any. -/
def checkedSums (checked : Option Box) : List Operation :=
  [label, withWord .intAdd index 1 2, isBelow 2 3, { guardTrue 3 with result := checked },
    withWord .intAdd (box 2) 1 4, isBelow 4 5, guardTrue 5,
    { jump with args := [.box (checked.getD index), .box bound] }]

def keptCheckedSums (checked : Option Box) : List Operation :=
  [label, withWord .intAdd index 1 2, withWord .intAdd index 2 4, isBelow 4 5, guardTrue 5,
    { jump with args := [.box (checked.getD index), .box bound] }]

def sums : List Operation := checkedSums none

def keptSums : List Operation := keptCheckedSums none

/-- Three times the index, halved, and three times the half of the index are below the bound. -/
def products : List Operation :=
  [label, withWord .intMul index 3 2, withWord .intFloorDiv (box 2) 2 3, isBelow 3 4, guardTrue 4,
    withWord .intFloorDiv index 2 5, withWord .intMul (box 5) 3 6, isBelow 6 7, guardTrue 7, jump]

def keptProducts : List Operation :=
  [label, withWord .intMul index 3 2, withWord .intFloorDiv (box 2) 2 3,
    withWord .intFloorDiv index 2 5, withWord .intMul (box 5) 3 6, isBelow 6 7, guardTrue 7, jump]

def words (start limit : Int64) : Words
  | ⟨0, .int⟩ => start
  | ⟨1, .int⟩ => limit
  | _ => 0

/-- The condition that the index plus an offset is below the bound. -/
def plus (offset : Int64) : IndexCondition := ⟨⟨.intLt, index, 1, 1, .box bound⟩, offset⟩

/-- The condition that three halves of the index are below the bound. -/
def scaled : IndexCondition := ⟨⟨.intLt, index, 3, 2, .box bound⟩, 0⟩

theorem scopedFrom_sums : ScopedFrom [index, bound] sums :=
  (scoped_iff_scopedFrom label sums.tail).mp (by decide)

theorem scopedFrom_products : ScopedFrom [index, bound] products :=
  (scoped_iff_scopedFrom label products.tail).mp (by decide)

/-- Two comparisons with the bound. -/
def comparisons (left first right second : Nat) : Std.HashMap Box Comparison :=
  ((∅ : Std.HashMap Box Comparison).insert (box first) ⟨.intLt, .box (box left), .box bound⟩).insert
    (box second) ⟨.intLt, .box (box right), .box bound⟩

section

variable {checked : Option Box} (either : checked = none ∨ checked = some (box 6))

include either

theorem ofGuard_sums : ofGuard (.ofOperations (checkedSums checked)) (comparisons 2 3 4 5)
        { guardTrue 3 with result := checked } = .ok (some (plus 1)) ∧
      ofGuard (.ofOperations (checkedSums checked)) (comparisons 2 3 4 5) (guardTrue 5) =
        .ok (some (plus 2)) := by
  rcases either with rfl | rfl <;> exact ⟨by cbv, by cbv⟩

theorem scan_sums : scan (.ofOperations (checkedSums checked)) (comparisons 2 3 4 5) 0
      (checkedSums checked) {} =
        .ok ((({} : GuardCollapse).consider (plus 1) 3).consider (plus 2) 6) := by
  obtain ⟨first, second⟩ := ofGuard_sums either
  generalize ofOperations (checkedSums checked) = indices at first second ⊢
  unfold checkedSums
  rw [scan_of_none rfl, scan_of_none rfl,
    scan_of_none rfl, scan_of_some first,
    scan_of_none rfl, scan_of_none rfl,
    scan_of_some second, scan_of_none rfl]
  rfl

theorem collapse_checkedSums :
    collapse (checkedSums checked) = .ok (keptCheckedSums checked, 1) := by
  refine bind_eq_ok.mpr ⟨comparisons 2 3 4 5, rfl, bind_eq_ok.mpr ⟨_, scan_sums either, ?_⟩⟩
  have dropped := dropped_consider (plus 1) (plus 2) 3 6 rfl (by decide)
  generalize (({} : GuardCollapse).consider (plus 1) 3).consider (plus 2) 6 = state at dropped ⊢
  obtain ⟨strongest, _⟩ := state
  cases dropped
  simp only [Std.HashSet.contains_ofList]
  rcases either with rfl | rfl <;> cbv

end

theorem collapse_sums : collapse sums = .ok (keptSums, 1) :=
  collapse_checkedSums (.inl rfl)

theorem ofGuard_products : ofGuard (.ofOperations products) (comparisons 3 4 6 7) (guardTrue 4) =
        .ok (some scaled) ∧
      ofGuard (.ofOperations products) (comparisons 3 4 6 7) (guardTrue 7) = .ok (some scaled) :=
  ⟨by cbv, by cbv⟩

theorem scan_products : scan (.ofOperations products) (comparisons 3 4 6 7) 0 products {} =
      .ok ((({} : GuardCollapse).consider scaled 4).consider scaled 8) := by
  obtain ⟨first, second⟩ := ofGuard_products
  generalize ofOperations products = indices at first second ⊢
  unfold products
  rw [scan_of_none rfl, scan_of_none rfl,
    scan_of_none rfl, scan_of_none rfl,
    scan_of_some first, scan_of_none rfl,
    scan_of_none rfl, scan_of_none rfl,
    scan_of_some second, scan_of_none rfl]
  rfl

theorem collapse_products : collapse products = .ok (keptProducts, 1) := by
  refine bind_eq_ok.mpr ⟨comparisons 3 4 6 7, rfl, bind_eq_ok.mpr ⟨_, scan_products, ?_⟩⟩
  have dropped := dropped_consider scaled scaled 4 8 rfl (by decide)
  generalize (({} : GuardCollapse).consider scaled 4).consider scaled 8 = state at dropped ⊢
  obtain ⟨strongest, _⟩ := state
  cases dropped
  simp only [Std.HashSet.contains_ofList]
  cbv

theorem keepsOrder_sums : GuardCollapse.KeepsOrder sums ((words 5 100).settle sums) := by
  have conditions : conditions sums = [plus 1, plus 2] := by
    cbv
  unfold GuardCollapse.KeepsOrder
  rw [conditions]
  decide

end IndexGuards

open IndexGuards in
/-- From five, with a bound of a hundred, the guard that is kept checks as much as both. -/
theorem allPass_of_sums :
    ((words 5 100).AllPass (fun _ => false) keptSums ↔
        (words 5 100).AllPass (fun _ => false) sums) ∧
      (words 5 100).AllPass (fun _ => false) keptSums :=
  ⟨(GuardCollapse.allPass_collapse scopedFrom_sums collapse_sums (words 5 100) fun _ => false).2
    (Or.inl (by decide)) keepsOrder_sums, by decide⟩

open IndexGuards in
/-- The guard that is kept may pass where the one that is dropped does not.  Three times one,
halved, is one, but three times the half of one is zero; both products are taken for one index.
And next to the greatest word the index plus two overflows, and the index plus one does not. -/
theorem not_allPass_of_products :
    ScopedFrom [index, bound] products ∧
      GuardCollapse.collapse products = .ok (keptProducts, 1) ∧
      (words 1 1).AllPass (fun _ => false) keptProducts ∧
      ¬ (words 1 1).AllPass (fun _ => false) products ∧
      ScopedFrom [index, bound] sums ∧ GuardCollapse.collapse sums = .ok (keptSums, 1) ∧
      (words (Int64.maxValue - 1) Int64.maxValue).AllPass (fun _ => false) keptSums ∧
      ¬ (words (Int64.maxValue - 1) Int64.maxValue).AllPass (fun _ => false) sums :=
  ⟨scopedFrom_products, collapse_products, by decide, by decide, scopedFrom_sums, collapse_sums,
    by decide, by decide⟩

end LinearTrace
