import LinearTrace.Proofs.Dependency.Behind
import LinearTrace.Proofs.Vectorize.Hoist
import LinearTrace.Proofs.Vectorize.Stages

/-!
# Effects and kept guards

An effect follows the last guard in front of it, and a guard follows the last guard and
the effects since, so the order of an effect and a guard hangs on the guards between
them.  When one of these is relaxed the two may change places, and they do so in front
of the early exit only, which then waits for a relaxed guard behind both.
-/

namespace LinearTrace

open DependencyGraph

/-- Of two operations the second has gone in front of the first and of the early exit.  A guard
between them has come to resume at the loop header, and one behind them comes between the second
operation and the early exit. -/
structure Crosses (before after : List Operation) (order : List Nat) (first second : Nat) :
    Prop where
  cut : ∃ between, first < between ∧ between < second ∧ ResumesEarly order after between ∧
    ∀ former, before[between]? = some former → former.exitsEarly = false
  pulled : ∃ exit guard, before.findIdx? (fun op => op.opcode == .guardEarlyExit) = some exit ∧
    exit ≤ first ∧ second < guard ∧ ResumesEarly order after guard ∧
    [second, guard, exit].Sublist order

section

variable {ops : List Operation} {start graph : DependencyGraph}
  {order relaxed earlier later : List Nat} {earlyExit first second : Nat}

variable (built : ofOperations ops = .ok start) (isExit : start.earlyExit = some earlyExit)
  (loosens : Loosens earlyExit start relaxed graph) (isSchedule : graph.IsSchedule order)

include built isExit loosens isSchedule

theorem crosses_of_overtakes (split : order = earlier ++ second :: later)
    (lowest : (graph.node second).priority = 0) (unrelaxed : second ∉ relaxed)
    (before : first < second) (isLeft : first ∉ earlier)
    (cut : ∃ between, first < between ∧ between < second ∧
      ResumesEarly order (order.map graph.op) between ∧
      ∀ former, ops[between]? = some former → former.exitsEarly = false) :
    Crosses ops (order.map graph.op) order first second := by
  obtain ⟨behind, exitLeft, _⟩ := loosens.exit_of_overtakes isSchedule split lowest before isLeft
  obtain ⟨guard, isRelaxed, isLater, between⟩ := loosens.exists_relaxed isSchedule split lowest
    unrelaxed (Nat.lt_of_le_of_lt behind before) exitLeft
  have member : guard ∈ order := between.subset (by simp)
  exact ⟨cut, earlyExit, guard, (earlyExit_of_ofOperations built).symm.trans isExit, behind,
    isLater, resumesEarly_map member (loosens.exitsEarly isRelaxed), between⟩

variable {effect guard : Nat} {effectOp guardOp : Operation}
  (found : ops[effect]? = some effectOp) (isEffect : effectOp.opcode.hasSideEffect)

include found isEffect

theorem crosses_effect (chained : IsChainedAt ops guard) (split : order = earlier ++ guard :: later)
    (unrelaxed : guard ∉ relaxed) (before : effect < guard) (isLeft : effect ∉ earlier) :
    Crosses ops (order.map graph.op) order effect guard := by
  obtain ⟨guardOp, isGuardOp, isChained⟩ := id chained
  have lowest : (graph.node guard).priority = 0 := by
    apply loosens.lowest_of_isGuard
    rw [(lists_of_ofOperations built).op guard guardOp isGuardOp]
    exact Operation.isGuard_of_isChained isChained
  obtain ⟨between, after, upTo, isRelaxed, resumes, stayed⟩ := exists_isRelaxed_of_chainPath built
    isExit loosens isSchedule split
    (chainPath_of_ofOperations built (.inl ⟨effectOp, found, isEffect⟩) chained before) isLeft
  refine crosses_of_overtakes built isExit loosens isSchedule split lowest unrelaxed before isLeft
    ⟨between, after, Nat.lt_of_le_of_ne upTo ?_, resumes, stayed⟩
  rintro rfl
  exact unrelaxed isRelaxed

/-- An effect crosses an earlier guard that is kept in order when a guard between them is
relaxed: it still follows the last guard in front of it. -/
theorem crosses_guard (chained : IsChainedAt ops guard) (split : order = earlier ++ effect :: later)
    (before : guard < effect) (isLeft : guard ∉ earlier) :
    Crosses ops (order.map graph.op) order guard effect := by
  have sameOp := (lists_of_ofOperations built).op effect effectOp found
  have lowest : (graph.node effect).priority = 0 := by
    refine loosens.lowest (Bool.eq_false_iff.mpr fun isPure => ?_)
    rw [← sameOp, Opcode.hasSideEffect_of_isPure isPure] at isEffect
    cases isEffect
  have unrelaxed : effect ∉ relaxed := by
    intro isRelaxed
    have isGuard := (loosens.may effect isRelaxed).2.1
    rw [sameOp, Operation.isGuard, Opcode.isGuard_of_hasSideEffect isEffect] at isGuard
    cases isGuard
  have isHeld : IsHeldAt ops effect := ⟨effectOp, found, Bool.or_eq_true_iff.mpr (.inl isEffect)⟩
  obtain ⟨last, isBefore, edge, path⟩ := follows_of_isHeldAt built chained isHeld before
  have isEarlier : last ∈ earlier := by
    refine isSchedule.ordered _ _ _ split last (loosens.mem_of_hasSideEffect (sameOp ▸ isEffect) ?_)
    exact (isMirrored_of_ofOperations built).mem_iff.mp (hasEdge_iff.mp edge)
  rcases path with rfl | path
  · exact absurd isEarlier isLeft
  obtain ⟨front, back, rfl⟩ := List.append_of_mem isEarlier
  have isSplit : order = front ++ last :: (back ++ effect :: later) := by
    rw [split, List.append_assoc, List.cons_append]
  obtain ⟨between, after, upTo, _, resumes, stayed⟩ := exists_isRelaxed_of_chainPath built isExit
    loosens isSchedule isSplit path fun isFront => isLeft (List.mem_append_left _ isFront)
  exact crosses_of_overtakes built isExit loosens isSchedule split lowest unrelaxed before isLeft
    ⟨between, after, Nat.lt_of_le_of_lt upTo isBefore, resumes, stayed⟩

end

theorem isChainedAt_of_unrelaxed {ops : List Operation} {start graph : DependencyGraph}
    {relaxed : List Nat} {earlyExit guard : Nat} {guardOp : Operation} (lists : start.Lists ops)
    (loosens : Loosens earlyExit start relaxed graph)
    (found : ops[guard]? = some guardOp) (isGuard : guardOp.isGuard)
    (kept : (graph.op guard).exitsEarly → guardOp.opcode = .guardEarlyExit) :
    IsChainedAt ops guard ∧ guard ∉ relaxed := by
  have sameOp := lists.op guard guardOp found
  constructor
  · refine ⟨guardOp, found, Operation.isChained_of_stays isGuard ?_ _⟩
    cases early : guardOp.exitsEarly with
    | false => exact .inl rfl
    | true => exact .inr (kept ((loosens.loosensTo guard).exitsEarly (sameOp ▸ early)))
  · intro isRelaxed
    refine (loosens.may guard isRelaxed).2.apart.2 ?_
    rw [sameOp]
    exact kept (loosens.exitsEarly isRelaxed)

/-- Every effect stays on its side of the guards that are not relaxed, or one of the two crosses
the other.  The early exit resumes at the loop header from the start; other guards that do are
held in no order with effects. -/
def KeepsEffects (before after : List Operation) (order : List Nat) : Prop :=
  ∀ effect guard effectOp guardOp, before[effect]? = some effectOp →
    before[guard]? = some guardOp → effectOp.opcode.hasSideEffect = true →
    guardOp.isGuard = true →
    (ResumesEarly order after guard → guardOp.opcode = .guardEarlyExit) →
    (effect < guard →
      [effect, guard].Sublist order ∨ Crosses before after order effect guard) ∧
    (guard < effect →
      [guard, effect].Sublist order ∨ Crosses before after order guard effect)

theorem keepsEffects_range (ops : List Operation) :
    KeepsEffects ops ops (List.range ops.length) := by
  intro effect guard effectOp guardOp found isGuardOp _ _ _
  constructor
  · intro before
    exact .inl (sublist_range before (List.getElem?_eq_some_iff.mp isGuardOp).1)
  · intro before
    exact .inl (sublist_range before (List.getElem?_eq_some_iff.mp found).1)

theorem exists_keepsEffects {ops after : List Operation} {start graph : DependencyGraph}
    {relaxed : List Nat} {earlyExit : Nat} (built : ofOperations ops = .ok start)
    (isExit : start.earlyExit = some earlyExit) (loosens : Loosens earlyExit start relaxed graph)
    (scheduled : Vectorizer.scheduledOperations graph = .ok after) :
    ∃ order, IsReordering order ops after ∧ KeepsEffects ops after order := by
  obtain ⟨order, rfl, isSchedule⟩ := exists_order loosens.mirrored loosens.pack scheduled
  have lists := lists_of_ofOperations built
  refine ⟨_, isReordering_of_loosens lists loosens isSchedule.toIsOrder, ?_⟩
  intro effect guard effectOp guardOp found isGuardOp isEffect isGuard kept
  have isMember : ∀ {position op}, ops[position]? = some op → position ∈ order := by
    intro position op isOp
    rw [isSchedule.mem_iff, loosens.size, lists.size]
    exact (List.getElem?_eq_some_iff.mp isOp).1
  obtain ⟨chained, unrelaxed⟩ := isChainedAt_of_unrelaxed lists loosens isGuardOp isGuard
    fun early => kept (resumesEarly_map (isMember isGuardOp) early)
  constructor
  · intro before
    refine (sublist_or_not_mem effect (isMember isGuardOp)).imp_right ?_
    rintro ⟨earlier, later, split, isLeft⟩
    exact crosses_effect built isExit loosens isSchedule found isEffect chained split unrelaxed
      before isLeft
  · intro before
    refine (sublist_or_not_mem guard (isMember found)).imp_right ?_
    rintro ⟨earlier, later, split, isLeft⟩
    exact crosses_guard built isExit loosens isSchedule found isEffect chained split before isLeft

/-- Relaxing guards keeps effects on their side of the guards that are not relaxed, unless a guard
between them and one behind both are. -/
theorem Vectorizer.keepsEffects_of_relaxGuards {before after : Vectorizer}
    (ran : relaxGuards before = .ok () after) :
    ∃ order, IsReordering order before.ops after.ops ∧
      KeepsEffects before.ops after.ops order := by
  rcases ((ensures_relaxGuards before).of_ok ran).1 with
    same | ⟨graph, relaxation, built, isRelaxation, scheduled⟩
  · rw [same]
    exact ⟨_, isReordering_range before.ops, keepsEffects_range before.ops⟩
  · obtain ⟨earlyExit, relaxed, isExit, _, loosens, _⟩ := exists_loosens built isRelaxation
    exact exists_keepsEffects built isExit loosens scheduled

/-! ## A call between two comparisons -/

/-- A call between two comparisons that are guarded, behind the early exit and another guard. -/
def GuardedCall.counter : Value := .box ⟨1, .int⟩

namespace GuardedCall

def label : Operation := { opcode := .label, args := [counter], descriptor := some (.target 1) }

def guarded (opcode : Opcode) (args : List Value) (resume : Resume) : Operation :=
  { opcode := opcode, args := args, descriptor := some (.guard resume),
    snapshot := some (.root [counter]) }

def below (bound : Int64) (result : Box) : Operation :=
  { opcode := .intLt, args := [counter, .int bound], result := some result }

def call : Operation :=
  { opcode := .call, args := [.int 4096], descriptor := some (.call {}) }

def jump : Operation := { opcode := .jump, args := [counter], descriptor := some (.target 1) }

def early : Operation := guarded .guardEarlyExit [] .atLoopHeader

def valid : Operation := guarded .guardNotInvalidated [] .guard

def ops : List Operation :=
  [label, early, valid, below 5 ⟨2, .int⟩, guarded .guardTrue [.box ⟨2, .int⟩] .guard, call,
    below 7 ⟨3, .int⟩, guarded .guardTrue [.box ⟨3, .int⟩] .guard, jump]

def reordered : List Operation :=
  [label, below 5 ⟨2, .int⟩, below 7 ⟨3, .int⟩,
    guarded .guardTrue [.box ⟨2, .int⟩] .atLoopHeader, call,
    guarded .guardTrue [.box ⟨3, .int⟩] .atLoopHeader, early, valid, jump]

def state : Vectorizer := .start .sse {} { ops := ops, supply := ⟨4⟩ }

def relaxed : Vectorizer := { state with ops := reordered, stats := { relaxed := 2 } }

theorem relaxes : Vectorizer.relaxGuards state = .ok () relaxed := by
  cbv

theorem order_eq {order : List Nat} (isReordering : IsReordering order ops reordered) :
    order = [0, 3, 6, 4, 5, 7, 1, 2, 8] := by
  rw [isReordering.order_eq (by decide)]
  decide

end GuardedCall

open GuardedCall in
/-- The call has gone in front of the early exit and of the guard behind it, neither of which was
relaxed. -/
theorem not_behind_of_guardedCall :
    Vectorizer.relaxGuards state = .ok () relaxed ∧
      ∀ order, IsReordering order state.ops relaxed.ops →
        ¬ ResumesEarly order relaxed.ops 2 ∧ ¬ [2, 5].Sublist order ∧ ¬ [1, 5].Sublist order := by
  refine ⟨relaxes, fun order isReordering => ?_⟩
  rw [order_eq isReordering]
  decide

open GuardedCall in
/-- The first of the guards that were relaxed stands between the guard and the call, and the second
one behind them. -/
theorem crosses_of_guardedCall :
    ∃ order, IsReordering order state.ops relaxed.ops ∧
      Crosses state.ops relaxed.ops order 2 5 := by
  obtain ⟨order, isReordering, keeps⟩ := Vectorizer.keepsEffects_of_relaxGuards relaxes
  have unrelaxed : ResumesEarly order relaxed.ops 2 → valid.opcode = .guardEarlyExit := by
    rw [order_eq isReordering]
    decide
  refine ⟨order, isReordering,
    ((keeps 5 2 call valid rfl rfl rfl rfl unrelaxed).2 (by decide)).resolve_left ?_⟩
  rw [order_eq isReordering]
  decide

end LinearTrace
