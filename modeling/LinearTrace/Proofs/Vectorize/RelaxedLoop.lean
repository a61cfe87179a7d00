import LinearTrace.Proofs.Schedule.Fresh
import LinearTrace.Proofs.Vectorize.Division

/-!
# Loops with relaxed guards

Relaxing the guards of a loop gives a loop again, with the same label and the same
closing operation.  Its operations are those of the former loop in another order,
and each guard that was relaxed resumes like the early exit, in front of which it
stands.  Nothing but the distance of two accesses to memory can keep the guards from
being relaxed: it may have no absolute value, and then there is no graph to begin with.
-/

namespace LinearTrace

open List

open DependencyGraph

/-- The first early exit among some operations. -/
def earlyExitOf? (ops : List Operation) : Option Operation :=
  ops.find? fun op => op.opcode == .guardEarlyExit

/-- A guard that resumes where the early exit of some operations does. -/
def Operation.resumingIn (guard : Operation) (ops : List Operation) : Operation :=
  { guard with
    descriptor := some (.guard .atLoopHeader)
    snapshot := (earlyExitOf? ops).bind Operation.snapshot }

/-- The operations are others in a given order, where guards from some positions have come to
resume like the early exit, in front of which they stand. -/
structure RelaxesAt (guards order : List Nat) (before after : List Operation) : Prop where
  isPerm : order.Perm (range before.length)
  ops : List.Forall₂ (fun position op => ∃ former, before[position]? = some former ∧
    op = if position ∈ guards then former.resumingIn before else former) order after
  distinct : guards.Nodup
  isGuard : ∀ guard ∈ guards, ∃ op, before[guard]? = some op ∧ op.isGuard = true ∧
    op.opcode ≠ .guardEarlyExit
  inFront : ∀ guard ∈ guards, ∃ exit,
    before.findIdx? (fun op => op.opcode == .guardEarlyExit) = some exit ∧
      [guard, exit].Sublist order

theorem RelaxesAt.refl (ops : List Operation) : RelaxesAt [] (range ops.length) ops ops where
  isPerm := .refl _
  ops := by
    refine forall₂_iff_get.mpr ⟨length_range, fun place _ inside => ?_⟩
    exact ⟨ops.get ⟨place, inside⟩, by simp, by simp⟩
  distinct := nodup_nil
  isGuard guard member := absurd member not_mem_nil
  inFront guard member := absurd member not_mem_nil

section

variable {ops : List Operation} {start graph : DependencyGraph} {order relaxed : List Nat}
  {earlyExit : Nat}

theorem DependencyGraph.Lists.snapshot_of_earlyExit (lists : start.Lists ops)
    (isExit : ops.findIdx? (fun op => op.opcode == .guardEarlyExit) = some earlyExit) :
    (earlyExitOf? ops).bind Operation.snapshot = (start.op earlyExit).snapshot := by
  obtain ⟨inside, isOpcode, first⟩ := findIdx?_eq_some_iff_getElem.mp isExit
  have found : earlyExitOf? ops = some ops[earlyExit] :=
    find?_eq_some_iff_getElem.mpr ⟨isOpcode, earlyExit, inside, rfl, fun earlier before => by
      rw [Bool.not_eq_true']
      exact Bool.eq_false_iff.mpr (first earlier before)⟩
  rw [found, Option.bind_some, lists.op earlyExit _ (getElem?_eq_getElem inside)]

theorem Loosens.relaxesAt (loosens : Loosens earlyExit start relaxed graph)
    (built : ofOperations ops = .ok start) (isExit : start.earlyExit = some earlyExit)
    (isOrder : graph.IsOrder order) (among : relaxed.Sublist start.guards) :
    RelaxesAt relaxed order ops (order.map graph.op) := by
  have lists := lists_of_ofOperations built
  have isFirst : ops.findIdx? (fun op => op.opcode == .guardEarlyExit) = some earlyExit :=
    (earlyExit_of_ofOperations built).symm.trans isExit
  have isPerm := isOrder.isPerm
  rw [loosens.size, lists.size] at isPerm
  refine ⟨isPerm, ?_, ?_, fun guard isRelaxed => ?_, fun guard isRelaxed => ?_⟩
  · refine forall₂_map_right_iff.mpr (forall₂_same.mpr fun node member => ?_)
    have found := getElem?_eq_getElem (mem_range.mp (isPerm.mem_iff.mp member))
    refine ⟨_, found, ?_⟩
    rw [← lists.op node _ found]
    split
    next isRelaxed =>
      rw [loosens.resumes node isRelaxed, Operation.resumingIn, lists.snapshot_of_earlyExit isFirst]
    next isKept => exact loosens.op node isKept
  · refine among.nodup ?_
    rw [guards_of_ofOperations built]
    exact nodup_range.filter _
  · obtain ⟨inside, may⟩ := loosens.may guard isRelaxed
    rw [lists.size] at inside
    have found := getElem?_eq_getElem inside
    have isGuard := ((mem_guards_iff built).mp (among.subset isRelaxed)).2
    rw [lists.op guard _ found] at isGuard
    refine ⟨_, found, isGuard, ?_⟩
    rw [← lists.op guard _ found]
    exact may.apart.2
  · have next := loosens.mirrored.mem_iff.mpr (loosens.waits guard isRelaxed)
    exact ⟨earlyExit, isFirst,
      isOrder.sublist_of_reaches loosens.mirrored (.single (hasEdge_iff.mpr next))⟩

end

namespace Vectorizer

variable {before after : Vectorizer} {body : List Operation} {label closing : Operation}

theorem exists_graph_of_relaxGuards (ran : relaxGuards before = .ok () after) :
    ∃ graph, ofOperations before.ops = .ok graph := by
  cases built : ofOperations before.ops with
  | ok graph => exact ⟨graph, rfl⟩
  | error fault =>
    have stopped : relaxGuards before = .error fault before := by
      show EStateM.bind (Work.ofExcept (ofOperations before.ops)) _ before = _
      rw [built]
      rfl
    rw [stopped] at ran
    cases ran

theorem exists_relaxesAt (loop : IsLoop before.ops label body closing)
    (tidy : ∀ op ∈ before.ops, op.IsTidy label.argBoxes) {graph : DependencyGraph}
    (built : ofOperations before.ops = .ok graph) :
    ∃ after guards order inner, relaxGuards before = .ok () after ∧
      RelaxesAt guards order before.ops after.ops ∧ IsLoop after.ops label inner closing ∧
      after.stats.relaxed = before.stats.relaxed + guards.length := by
  cases isRelaxation : Relaxation.ofGraph? graph before.config.maxPaths with
  | none =>
    have ran : relaxGuards before = .ok () before := by
      show EStateM.bind (Work.ofExcept (ofOperations before.ops)) _ before = _
      simp only [EStateM.bind, built, Work.ofExcept, pure, EStateM.pure, isRelaxation]
    exact ⟨before, [], _, body, ran, .refl before.ops, loop, rfl⟩
  | some relaxation =>
    obtain ⟨earlyExit, relaxed, isExit, _, loosens, among, isCount⟩ :=
      exists_loosens built isRelaxation
    obtain ⟨order, scheduled, isSchedule⟩ := loosens.exists_schedule
    obtain ⟨inner, isLoop, _⟩ := loosens.exists_isLoop loop tidy built isExit isSchedule
    have ran : relaxGuards before = .ok () { before with
        ops := order.map relaxation.graph.op
        graph := none
        stats := { before.stats with relaxed := before.stats.relaxed + relaxation.relaxed } } := by
      show EStateM.bind (Work.ofExcept (ofOperations before.ops)) _ before = _
      simp only [EStateM.bind, built, Work.ofExcept, pure, EStateM.pure, isRelaxation]
      show EStateM.bind (Work.ofExcept (scheduledOperations relaxation.graph)) _ _ = _
      rw [scheduled]
      rfl
    refine ⟨_, relaxed, order, inner, ran, ?_, isLoop, ?_⟩
    · exact loosens.relaxesAt built isExit isSchedule.toIsOrder among
    · rw [← isCount]

/-- The guards of a loop of tidy operations can be relaxed, and it remains a loop with the same
ends, if and only if the distance of no two accesses that are compared is without an absolute
value. -/
theorem relaxGuards_isLoop_iff (loop : IsLoop before.ops label body closing)
    (tidy : ∀ op ∈ before.ops, op.IsTidy label.argBoxes) :
    (∃ after guards order inner, relaxGuards before = .ok () after ∧
      RelaxesAt guards order before.ops after.ops ∧ IsLoop after.ops label inner closing ∧
      after.stats.relaxed = before.stats.relaxed + guards.length) ↔
    ∀ first second, ¬ Unmeasured before.ops first second := by
  rw [← exists_ofOperations_iff]
  constructor
  · rintro ⟨after, _, _, _, ran, _⟩
    exact exists_graph_of_relaxGuards ran
  · rintro ⟨graph, built⟩
    exact exists_relaxesAt loop tidy built

end Vectorizer

open CheckedDivision in
/-- Both guards of a division whose divisor is checked are relaxed. -/
theorem relaxesAt_of_checkedDivision :
    ∃ guards order inner, RelaxesAt guards order state.ops relaxed.ops ∧
      IsLoop relaxed.ops label inner jump ∧ guards.length = 2 := by
  obtain ⟨graph, built⟩ := Vectorizer.exists_graph_of_relaxGuards relaxes
  obtain ⟨after, guards, order, inner, ran, relaxesAt, loop, count⟩ :=
    (Vectorizer.relaxGuards_isLoop_iff isLoop (by decide)).mpr
      (exists_ofOperations_iff.mp ⟨graph, built⟩)
  cases relaxes.symm.trans ran
  refine ⟨guards, order, inner, relaxesAt, loop, ?_⟩
  rw [← Nat.zero_add guards.length]
  exact count.symm

namespace FarStores

def state : Vectorizer := .start .sse {} { ops := ops, supply := ⟨2⟩ }

end FarStores

open FarStores in
/-- There is no graph for two stores too far apart, and so the guards of a loop with them are not
relaxed. -/
theorem not_relaxed_of_farStores :
    IsLoop state.ops label body jump ∧ (∀ op ∈ state.ops, op.IsTidy label.argBoxes) ∧
      Vectorizer.relaxGuards state = .error (.abort .overflow) state :=
  ⟨⟨rfl, rfl, by decide, Or.inl rfl, by decide⟩, by decide, rfl⟩

end LinearTrace
