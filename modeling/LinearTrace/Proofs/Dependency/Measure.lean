import LinearTrace.Proofs.Dependency.Memory
import LinearTrace.Proofs.Word

/-!
# Distances without an absolute value

A graph is built unless two accesses have to be compared whose indices lie exactly
`2 ^ 63` apart: that distance is a word, but its absolute value is not.  The scan
for what an access must follow comes to such an access unless a conflicting write
stops it before.
-/

namespace LinearTrace

open List IndexVar

/-! ## References -/

namespace MemoryRef

variable {left right : MemoryRef}

/-- The references are compared by the distance between their indices, and that distance is the
least word, which has no absolute value. -/
structure IsUnmeasured (left right : MemoryRef) : Prop where
  descriptor : left.descriptor = right.descriptor
  byteIndexed : left.byteIndexed = right.byteIndexed
  base : left.index.base = right.index.base
  multiplier : left.index.multiplier = right.index.multiplier
  divisor : left.index.divisor = right.index.divisor
  offset : left.index.offset.toInt + 2 ^ 63 = right.index.offset.toInt

/-- The distance between the offsets of two indices. -/
def gap (left right : MemoryRef) : Int :=
  left.index.offset.toInt - right.index.offset.toInt

/-- What is decided by the size of the distance between two indices: there is no answer for the
least word, and one that does not need the size where the distance is not a word. -/
theorem measured_eq {β : Type} (left right : MemoryRef) (found : Int64 → β) (otherwise : β) :
    (match left.index.distance? right.index with
      | some distance => do return found (← magnitude distance)
      | none => .ok otherwise : Except Fault β) =
      if left.gap right = -2 ^ 63 then .error (.abort .overflow)
      else .ok (if (left.gap right).natAbs < 2 ^ 63 then
        found (Int64.ofInt (left.gap right).natAbs) else otherwise) := by
  have least : Int64.minValue.toInt = -2 ^ 63 := rfl
  have greatest : Int64.maxValue.toInt = 2 ^ 63 - 1 := rfl
  cases known : left.index.distance? right.index with
  | none =>
    simp only [IndexVar.distance?, Word.sub?, Word.ofInt?, ite_eq_right_iff, reduceCtorEq,
      imp_false] at known
    change ¬ (_ ≤ left.gap right ∧ left.gap right ≤ _) at known
    rw [if_neg (by omega), if_neg (by omega)]
  | some distance =>
    have value : distance.toInt = left.gap right := Word.toInt_of_sub? known
    have range := Word.toInt_range distance
    dsimp only
    unfold magnitude Word.abs? Word.ofInt?
    rw [← value]
    by_cases isLeast : distance.toInt = -2 ^ 63
    · rw [if_pos isLeast, if_neg (by omega)]
      rfl
    · rw [if_neg isLeast, if_pos (by omega), if_pos (by omega)]
      rfl

theorem gap_comm (left right : MemoryRef) : left.gap right = -right.gap left := by
  unfold gap
  omega

theorem natAbs_gap_comm (left right : MemoryRef) :
    (left.gap right).natAbs = (right.gap left).natAbs := by
  unfold gap
  omega

/-- The references are compared by their distance. -/
def IsInLine (left right : MemoryRef) : Prop :=
  left.descriptor = right.descriptor ∧ left.byteIndexed = right.byteIndexed ∧
    left.index.sameBase right.index = true ∧ left.index.sameFactor right.index = true

theorem IsInLine.symm (line : left.IsInLine right) : right.IsInLine left := by
  unfold IsInLine sameBase sameFactor at line ⊢
  simp only [Bool.and_eq_true, beq_iff_eq] at line ⊢
  obtain ⟨descriptor, byteIndexed, base, multiplier, divisor⟩ := line
  exact ⟨descriptor.symm, byteIndexed.symm, base.symm, multiplier.symm, divisor.symm⟩

theorem isUnmeasured_iff :
    left.IsUnmeasured right ↔ left.IsInLine right ∧ left.gap right = -2 ^ 63 := by
  unfold IsInLine sameBase sameFactor gap
  simp only [Bool.and_eq_true, beq_iff_eq]
  constructor
  · rintro ⟨descriptor, byteIndexed, base, multiplier, divisor, offset⟩
    exact ⟨⟨descriptor, byteIndexed, base, multiplier, divisor⟩, by omega⟩
  · rintro ⟨⟨descriptor, byteIndexed, base, multiplier, divisor⟩, offset⟩
    exact ⟨descriptor, byteIndexed, base, multiplier, divisor, by omega⟩

theorem mayAlias_of_line (line : left.IsInLine right) : left.mayAlias right =
    if left.gap right = -2 ^ 63 then .error (.abort .overflow)
    else .ok (if (left.gap right).natAbs < 2 ^ 63 then
      decide (Int64.ofInt (left.gap right).natAbs < left.stride) else true) := by
  obtain ⟨descriptor, byteIndexed, base, factor⟩ := line
  unfold mayAlias
  rw [if_neg (not_not.mpr descriptor), if_neg (by simp [byteIndexed, base, factor])]
  exact measured_eq left right _ _

theorem mayAlias_of_not_line (apart : ¬ left.IsInLine right) :
    left.mayAlias right = .ok (decide (left.descriptor = right.descriptor)) := by
  unfold mayAlias
  split
  next different => rw [decide_eq_false different]
  rename_i same
  rw [not_not] at same
  rw [if_pos, decide_eq_true same]
  simp only [IsInLine, same, true_and] at apart
  revert apart
  cases left.byteIndexed <;> cases right.byteIndexed <;>
    cases left.index.sameBase right.index <;> cases left.index.sameFactor right.index <;> simp

theorem mayAlias_eq_ok_iff :
    (∃ verdict, left.mayAlias right = .ok verdict) ↔ ¬ left.IsUnmeasured right := by
  rw [isUnmeasured_iff]
  by_cases line : left.IsInLine right
  · rw [mayAlias_of_line line]
    split
    next isLeast => simp [line, isLeast]
    next measured => exact ⟨fun _ unmeasured => measured unmeasured.2, fun _ => ⟨_, rfl⟩⟩
  · rw [mayAlias_of_not_line line]
    exact ⟨fun _ unmeasured => line unmeasured.1, fun _ => ⟨_, rfl⟩⟩

/-- The order of the two matters only where one of them is too far below the other. -/
theorem mayAlias_comm_iff : left.mayAlias right = right.mayAlias left ↔
    ¬ left.IsUnmeasured right ∧ ¬ right.IsUnmeasured left := by
  rw [isUnmeasured_iff, isUnmeasured_iff]
  by_cases line : left.IsInLine right
  · have strides : left.stride = right.stride := by
      unfold stride
      rw [line.1, line.2.1]
    have opposite := gap_comm left right
    rw [mayAlias_of_line line, mayAlias_of_line line.symm, natAbs_gap_comm left right, strides]
    simp only [line, line.symm, true_and]
    by_cases below : left.gap right = -2 ^ 63
    · rw [if_pos below, if_neg (by omega)]
      exact iff_of_false (fun same => by cases same) fun measured => measured.1 below
    by_cases above : right.gap left = -2 ^ 63
    · rw [if_neg below, if_pos above]
      exact iff_of_false (fun same => by cases same) fun measured => measured.2 above
    · rw [if_neg below, if_neg above]
      exact iff_of_true rfl ⟨below, above⟩
  · have other : ¬ right.IsInLine left := fun isLine => line isLine.symm
    rw [mayAlias_of_not_line line, mayAlias_of_not_line other]
    simp [line, other, eq_comm]

theorem sameLine_symm (line : left.sameLine right) : right.sameLine left := by
  unfold sameLine sameArray sameBase sameFactor at line ⊢
  simp only [Bool.and_eq_true, beq_iff_eq] at line ⊢
  obtain ⟨⟨⟨array, descriptor⟩, base⟩, multiplier, divisor⟩ := line
  exact ⟨⟨⟨array.symm, descriptor.symm⟩, base.symm⟩, multiplier.symm, divisor.symm⟩

theorem isAdjacentTo_of_sameLine (line : left.sameLine right) : left.isAdjacentTo right =
    if left.gap right = -2 ^ 63 then .error (.abort .overflow)
    else .ok (decide (((left.gap right).natAbs : Int) = left.stride.toInt)) := by
  have measured := measured_eq left right (· == left.stride) false
  have range := Word.toInt_range left.stride
  unfold isAdjacentTo
  rw [line]
  refine Eq.trans ?_ (measured.trans ?_)
  · cases left.index.distance? right.index <;> rfl
  congr 2
  rw [Bool.eq_iff_iff, decide_eq_true_eq]
  split
  next fits => rw [beq_iff_eq, ← Int64.toInt_inj, Int64.toInt_ofInt_of_le (by omega) (by omega)]
  · simp only [Bool.false_eq_true, false_iff]
    omega

theorem isAdjacentTo_of_not_sameLine (apart : left.sameLine right = false) :
    left.isAdjacentTo right = .ok false := by
  unfold isAdjacentTo
  rw [apart]

/-- Aliasing and adjacency have an answer, the same in both orders, except for references on one
line that are exactly `2 ^ 63` apart, for which there is no answer in one order; and what is
adjacent in bytes need not be adjacent in items. -/
theorem symmetric_iff (left right : MemoryRef) :
    ((∃ verdict, left.mayAlias right = .ok verdict) ↔ ¬ left.IsUnmeasured right) ∧
      (left.mayAlias right = right.mayAlias left ↔
        ¬ left.IsUnmeasured right ∧ ¬ right.IsUnmeasured left) ∧
      ((∃ verdict, left.isAdjacentTo right = .ok verdict) ↔
        ¬ (left.sameLine right = true ∧ left.gap right = -2 ^ 63)) ∧
      (left.isAdjacentTo right = right.isAdjacentTo left ↔ (left.sameLine right = true →
        (left.gap right).natAbs ≠ 2 ^ 63 ∧
          (((left.gap right).natAbs : Int) = left.stride.toInt ↔
            ((left.gap right).natAbs : Int) = right.stride.toInt))) := by
  refine ⟨mayAlias_eq_ok_iff, mayAlias_comm_iff, ?_⟩
  by_cases line : left.sameLine right = true
  · have opposite := gap_comm left right
    rw [isAdjacentTo_of_sameLine line, isAdjacentTo_of_sameLine (sameLine_symm line),
      ← natAbs_gap_comm left right]
    by_cases below : left.gap right = -2 ^ 63
    · rw [if_pos below, if_neg (by omega)]
      refine ⟨iff_of_false ?_ fun measured => measured ⟨line, below⟩,
        iff_of_false (fun same => by cases same) fun measured => (measured line).1 (by omega)⟩
      rintro ⟨_, measured⟩
      cases measured
    · refine ⟨iff_of_true ⟨_, if_neg below⟩ fun unmeasured => below unmeasured.2, ?_⟩
      by_cases above : right.gap left = -2 ^ 63
      · rw [if_neg below, if_pos above]
        exact iff_of_false (fun same => by cases same) fun measured => (measured line).1 (by omega)
      · rw [if_neg below, if_neg above, Except.ok.injEq, decide_eq_decide]
        exact ⟨fun same _ => ⟨by omega, same⟩, fun measured => (measured line).2⟩
  · have apart := isAdjacentTo_of_not_sameLine (Bool.eq_false_iff.mpr line)
    have other := isAdjacentTo_of_not_sameLine
      (Bool.eq_false_iff.mpr fun isLine => line (sameLine_symm isLine))
    rw [apart, other]
    exact ⟨iff_of_true ⟨_, rfl⟩ fun unmeasured => line unmeasured.1,
      iff_of_true rfl fun isLine => absurd isLine line⟩

/-- A store to a constant place, counted in bytes or in items of eight bytes. -/
def mixed (offset : Int64) (byteIndexed : Bool) : MemoryRef :=
  ⟨.box ⟨0, .ref⟩, .ints 1 8, .ofWord offset, byteIndexed⟩

/-- The byte eight is next to the item zero, but the item zero is not next to the byte eight; and
the item zero can be compared with the least one, but not the other way round. -/
theorem not_symmetric_of_mixed :
    (mixed 8 true).isAdjacentTo (mixed 0 false) = .ok true ∧
      (mixed 0 false).isAdjacentTo (mixed 8 true) = .ok false ∧
      (mixed 0 false).mayAlias (mixed Int64.minValue false) = .ok true ∧
      (mixed Int64.minValue false).mayAlias (mixed 0 false) = .error (.abort .overflow) :=
  ⟨rfl, rfl, rfl, rfl⟩

end MemoryRef

/-! ## The scan -/

/-- The accesses refer to places whose distance has no absolute value. -/
def Access.IsUnmeasured (access : Access) (memory : Option MemoryRef) : Prop :=
  ∃ left right, access.memory = some left ∧ memory = some right ∧ left.IsUnmeasured right

namespace Access

variable {access : Access} {accesses : List Access} {memory : Option MemoryRef} {writes : Bool}

theorem mayTouch_eq_ok_iff :
    (∃ verdict, access.mayTouch memory = .ok verdict) ↔ ¬ access.IsUnmeasured memory := by
  unfold mayTouch IsUnmeasured
  cases access.memory with
  | none => simp
  | some left =>
    cases memory with
    | none => simp
    | some right =>
      rw [MemoryRef.mayAlias_eq_ok_iff]
      simp

theorem conflicts_cons_eq_ok_iff {latest : Access} :
    (∃ links, conflicts writes memory (latest :: accesses) = .ok links) ↔
      ¬ latest.IsUnmeasured memory ∧ ((latest.writes = true ∧ latest.mayTouch memory = .ok true) ∨
          ∃ links, conflicts writes memory accesses = .ok links) := by
  rw [← mayTouch_eq_ok_iff, conflicts]
  cases touched : latest.mayTouch memory with
  | error fault =>
    constructor
    · rintro ⟨_, scanned⟩
      cases scanned
    · rintro ⟨⟨_, measured⟩, _⟩
      cases measured
  | ok touches =>
    change (∃ links, (if touches = true then _ else _ : Except Fault (List Nat)) = .ok links) ↔ _
    cases touches with
    | false => simp
    | true =>
      cases isWrite : latest.writes with
      | true => simp [pure, Except.pure]
      | false =>
        cases writes with
        | false => simp
        | true =>
          cases conflicts true memory accesses with
          | error fault => simp [bind, Except.bind]
          | ok links => simp [bind, Except.bind, pure, Except.pure]

theorem conflicts_eq_ok_iff : (∃ links, conflicts writes memory accesses = .ok links) ↔
      ∀ front access rest, accesses = front ++ access :: rest → access.IsUnmeasured memory →
        ∃ write ∈ front, write.writes ∧ write.mayTouch memory = .ok true := by
  induction accesses with
  | nil => simp [conflicts]
  | cons latest earlier ih =>
    rw [conflicts_cons_eq_ok_iff, ih]
    constructor
    · rintro ⟨measured, stopsOrPasses⟩ front access rest isSplit unmeasured
      cases front with
      | nil =>
        cases isSplit
        exact absurd unmeasured measured
      | cons first front =>
        obtain ⟨rfl, isEarlier⟩ := List.cons.inj isSplit
        rcases stopsOrPasses with stops | passes
        · exact ⟨latest, mem_cons_self, stops⟩
        · obtain ⟨write, isFront, stops⟩ := passes front access rest isEarlier unmeasured
          exact ⟨write, mem_cons_of_mem _ isFront, stops⟩
    · intro scanned
      refine ⟨fun unmeasured => ?_, ?_⟩
      · obtain ⟨_, isFront, _⟩ := scanned [] latest earlier rfl unmeasured
        cases isFront
      by_cases stops : latest.writes = true ∧ latest.mayTouch memory = .ok true
      · exact .inl stops
      refine .inr fun front access rest isSplit unmeasured => ?_
      obtain ⟨write, isFront, isStop⟩ :=
        scanned (latest :: front) access rest (congrArg _ isSplit) unmeasured
      rcases mem_cons.mp isFront with rfl | isFront
      · exact absurd isStop stops
      · exact ⟨write, isFront, isStop⟩

end Access

/-! ## Whole graphs -/

/-- Two accesses, of which the first comes first, whose distance has no absolute value and between
which no write may touch the item of the second. -/
structure Unmeasured (ops : List Operation) (first second : Nat) : Prop where
  before : first < second
  apart : ∃ earlier later, accessAt ops first = some earlier ∧ accessAt ops second = some later ∧
    earlier.IsUnmeasured later.memory
  reached : ∀ write, first < write → write < second → WritesAt ops write →
    ¬ MayTouch ops write second

section

variable {ops : List Operation} {target : Nat} {access : Access}

variable {builder : GraphBuilder} {position : Nat}

theorem conflicts_accessesBefore_iff (isAccess : accessAt ops target = some access) :
    (∃ links, Access.conflicts access.writes access.memory (accessesBefore ops target) = .ok links) ↔
      ∀ first, ¬ Unmeasured ops first target := by
  rw [Access.conflicts_eq_ok_iff]
  constructor
  · rintro scanned first ⟨before, ⟨earlier, later, isEarlier, isLater, unmeasured⟩, reached⟩
    cases isAccess.symm.trans isLater
    have isNode := accessAt_node isEarlier
    have member : earlier ∈ accessesBefore ops target := by
      rw [mem_accessesBefore, isNode]
      exact ⟨before, isEarlier⟩
    obtain ⟨front, rest, isSplit⟩ := append_of_mem member
    obtain ⟨write, isFront, writes, touches⟩ := scanned front earlier rest isSplit unmeasured
    have isWrite : write ∈ accessesBefore ops target := by
      rw [isSplit]
      exact mem_append_left _ isFront
    obtain ⟨below, found⟩ := mem_accessesBefore.mp isWrite
    have sorted := pairwise_accessesBefore ops target
    rw [isSplit, pairwise_append] at sorted
    have after := sorted.2.2 write isFront earlier mem_cons_self
    rw [isNode] at after
    exact reached write.node after below ⟨write, found, writes⟩
      ⟨write, access, found, isLater, touches⟩
  · intro measured front earlier rest isSplit unmeasured
    have member : earlier ∈ accessesBefore ops target := by
      rw [isSplit]
      exact mem_append_right _ mem_cons_self
    obtain ⟨before, isEarlier⟩ := mem_accessesBefore.mp member
    by_contra passes
    refine measured earlier.node ⟨before, ⟨earlier, access, isEarlier, isAccess, unmeasured⟩, ?_⟩
    rintro position after below ⟨write, isWrite, writes⟩ ⟨_, _, isTouching, isTouched, touches⟩
    cases isWrite.symm.trans isTouching
    cases isAccess.symm.trans isTouched
    have isNode := accessAt_node isWrite
    have isListed : write ∈ accessesBefore ops target := by
      rw [mem_accessesBefore, isNode]
      exact ⟨below, isWrite⟩
    rw [isSplit] at isListed
    -- What comes later in the trace comes earlier in the list.
    have sorted := pairwise_accessesBefore ops target
    rw [isSplit, pairwise_append, pairwise_cons] at sorted
    rcases mem_append.mp isListed with isFront | isRest
    · exact passes ⟨write, isFront, writes, touches⟩
    rcases mem_cons.mp isRest with rfl | isRest
    · omega
    · have := sorted.2.1.1 write isRest
      omega

theorem GraphBuilder.exists_add {op : Operation}
    (scans : ∀ access, Access.ofOperation? builder.graph.indices position op = some access →
      ∃ links, Access.conflicts access.writes access.memory builder.accesses = .ok links) :
    ∃ next, builder.add position op = .ok next := by
  unfold add
  split
  · exact ⟨_, rfl⟩
  dsimp only
  split
  next accesses =>
    obtain ⟨links, scanned⟩ := scans _ (if_pos accesses)
    -- What accesses memory is no guard.
    have noGuard : op.isGuard = false := Bool.eq_false_iff.mpr fun isGuard => by
      rw [(Opcode.of_isGuard isGuard).1] at accesses
      cases accesses
    rw [noGuard, if_neg Bool.false_ne_true]
    rw [← (DependencyGraph.Links.ofLinkAll builder.graph (builder.definers op.args) position
      .data).keeps.indices] at scanned
    exact ⟨_, Fault.bind_eq_ok.mpr ⟨_, Fault.bind_eq_ok.mpr ⟨links, scanned, rfl⟩, rfl⟩⟩
  · exact ⟨_, rfl⟩

theorem Linked.exists_addAll {rest : List Operation} (linked : Linked ops position builder)
    (isRest : rest = ops.drop position) (measured : ∀ first second, ¬ Unmeasured ops first second) :
    ∃ final, builder.addAll position rest = .ok final := by
  induction rest generalizing builder position with
  | nil => exact ⟨builder, rfl⟩
  | cons op rest ih =>
    have found : ops[position]? = some op := by
      rw [← head?_drop, ← isRest, head?_cons]
    obtain ⟨next, added⟩ : ∃ next, builder.add position op = .ok next := by
      refine GraphBuilder.exists_add fun access isAccess => ?_
      rw [linked.indices] at isAccess
      rw [linked.accesses]
      refine (conflicts_accessesBefore_iff ?_).mpr fun first => measured first position
      rw [accessAt, found, Option.bind_some, isAccess]
    rw [GraphBuilder.addAll, added]
    refine ih (linked.add found added) ?_
    rw [← drop_drop, ← isRest, drop_one, tail_cons]

/-- A graph is built just when the scans come to no distance without an absolute value. -/
theorem DependencyGraph.exists_ofOperations_iff :
    (∃ graph, ofOperations ops = .ok graph) ↔ ∀ first second, ¬ Unmeasured ops first second := by
  constructor
  · rintro ⟨graph, built⟩ first second unmeasured
    obtain ⟨_, later, _, isLater, _⟩ := unmeasured.apart
    obtain ⟨links, scanned, _⟩ := hasEdge_of_conflicts built isLater
    exact (conflicts_accessesBefore_iff isLater).mp ⟨links, scanned⟩ first unmeasured
  intro measured
  obtain ⟨final, added⟩ :=
    (linked_start ops).exists_addAll drop_zero.symm measured
  unfold ofOperations
  rw [added]
  change ∃ graph, (if final.graph.size < 2 then _ else _ : Except Fault DependencyGraph) = _
  split
  · exact ⟨_, rfl⟩
  · exact ⟨_, rfl⟩

end

end LinearTrace
