import Mathlib.Algebra.BigOperators.Group.Finset.Basic
import Mathlib.Data.Finset.Range
import LinearTrace.Proofs.Pack.Apart

/-!
# Sorting groups

The state of a topological sort is known from the groups that have been visited: the
counter of a group is the number of edges into it from groups that have not.  A group
is visited once all that lead into it have been, so none on a cycle ever is.  When
the sort ends, the counters of the groups that are left are above zero, so without a
cycle none is left.
-/

namespace LinearTrace.PackSet

open List Sorting

variable {graph : DependencyGraph} {set : PackSet} {node number count : Nat}
  {done targets ready : List Nat} {sorting : Sorting}

/-! ## Counters -/

/-- The number of edges that lead into a group from groups that have not been visited. -/
def inward (graph : DependencyGraph) (done : List Nat) (number : Nat) : Nat :=
  ∑ node ∈ Finset.range graph.size with group graph node ∉ done,
    (leads graph (group graph node) node).count number

theorem inward_eq_zero_iff :
    inward graph done number = 0 ↔ ∀ first, Precedes graph first number → first ∈ done := by
  unfold inward
  rw [Finset.sum_eq_zero_iff]
  constructor
  · rintro none _ ⟨source, target, next, rfl, rfl, apart⟩
    by_contra isLeft
    have isSource := Finset.mem_range.mpr (graph.lt_size_of_mem_successors next)
    refine count_eq_zero.mp (none source (Finset.mem_filter.mpr ⟨isSource, isLeft⟩)) ?_
    exact mem_filter.mpr ⟨mem_map_of_mem next, bne_iff_ne.mpr apart.symm⟩
  · intro visited source isSource
    refine count_eq_zero.mpr fun isNext => (Finset.mem_filter.mp isSource).2 ?_
    obtain ⟨isGroup, apart⟩ := mem_filter.mp isNext
    obtain ⟨target, next, rfl⟩ := mem_map.mp isGroup
    exact visited _ ⟨source, target, next, rfl, rfl, (bne_iff_ne.mp apart).symm⟩

/-- Visiting a group takes the edges out of it away. -/
theorem inward_cons (recorded : IsRecorded graph set.packs) (isNode : node < graph.size)
    (fresh : group graph node ∉ done) (number : Nat) :
    inward graph done number = inward graph (group graph node :: done) number +
      (set.groupSuccessors graph (group graph node)).count number := by
  have members : (set.groupMembers graph (group graph node)).toFinset =
      {other ∈ Finset.range graph.size | group graph other ∉ done ∧
        group graph other = group graph node} := by
    ext other
    rw [mem_toFinset, mem_groupMembers_iff recorded isNode, Finset.mem_filter, Finset.mem_range]
    exact and_congr_right fun _ => ⟨fun same => ⟨same ▸ fresh, same⟩, And.right⟩
  unfold inward
  rw [groupSuccessors, count_flatMap, ← sum_toFinset _ (nodup_groupMembers recorded _), members,
    ← Finset.sum_filter_not_add_sum_filter _ (fun other => group graph other = group graph node),
    Finset.filter_filter, Finset.filter_filter]
  congr 1
  · simp only [mem_cons, not_or, and_comm]
  · refine Finset.sum_congr rfl fun other isOther => ?_
    rw [(Finset.mem_filter.mp isOther).2.2]
    rfl

theorem count_edges (graph : DependencyGraph) (number : Nat) :
    ((range graph.size).flatMap fun node => leads graph (group graph node) node).count number =
      inward graph [] number := by
  rw [count_flatMap, inward, Finset.filter_true_of_mem fun _ _ => not_mem_nil]
  rfl

/-- Taking an edge away lowers the counter of a group, which is ready at zero. -/
theorem release_map {level : Nat → Nat} (inside : number < count) (ready : List Nat) :
    release ⟨(Array.range count).map fun other => level other + if number = other then 1 else 0,
        ready⟩ number =
      .ok ⟨(Array.range count).map level, if level number = 0 then number :: ready else ready⟩ := by
  have lowered : ((Array.range count).map fun other =>
      level other + if number = other then 1 else 0).setIfInBounds number (level number) =
        (Array.range count).map level := by
    refine Array.ext_getElem? fun other => ?_
    rw [Array.getElem?_setIfInBounds]
    by_cases same : number = other
    · simp [← same, inside]
    · by_cases isOther : other < count <;> simp [same, isOther]
  simp [release, inside, lowered]

theorem exists_foldlM_release (left : Nat → Nat) (inside : ∀ number ∈ targets, number < count)
    (ready : List Nat) :
    ∃ fresh, targets.foldlM release
        ⟨(Array.range count).map fun number => left number + targets.count number, ready⟩ =
          .ok ⟨(Array.range count).map left, fresh ++ ready⟩ ∧
      fresh.Nodup ∧ ∀ number, number ∈ fresh ↔ number ∈ targets ∧ left number = 0 := by
  induction targets generalizing ready with
  | nil => exact ⟨[], rfl, nodup_nil, by simp⟩
  | cons target rest ih =>
    obtain ⟨fresh, released, distinct, isFresh⟩ := ih
      (fun other later => inside other (mem_cons_of_mem _ later))
      (if left target + rest.count target = 0 then target :: ready else ready)
    simp only [foldlM_cons, count_cons, beq_iff_eq, ← Nat.add_assoc,
      release_map (inside target mem_cons_self)]
    by_cases last : left target + rest.count target = 0
    · obtain ⟨zero, notLater⟩ := Nat.add_eq_zero_iff.mp last
      rw [if_pos last] at released ⊢
      refine ⟨fresh ++ [target], by rwa [append_assoc], ?_, fun number => ?_⟩
      · exact distinct.append (nodup_singleton _) (by simp [isFresh, count_eq_zero.mp notLater])
      · by_cases same : number = target <;> simp [isFresh, same, zero]
    · rw [if_neg last] at released ⊢
      refine ⟨fresh, released, distinct, fun number => ?_⟩
      rw [isFresh, mem_cons]
      refine and_congr_left fun zero => ⟨.inr, fun isTarget => isTarget.elim ?_ id⟩
      rintro rfl
      exact count_pos_iff.mp (by omega)

/-! ## Visits -/

/-- The sort has visited some groups.  They and the ready ones are those that nothing leads into but
from visited groups. -/
structure Sorting.IsAfter (graph : DependencyGraph) (count : Nat) (done : List Nat)
    (sorting : Sorting) : Prop where
  indegree : sorting.indegree = (Array.range count).map (inward graph done)
  waits : ∀ number, number ∈ sorting.ready ∨ number ∈ done ↔
    (∃ node < graph.size, group graph node = number) ∧ inward graph done number = 0
  distinct : (sorting.ready ++ done).Nodup
  accessible : ∀ number ∈ done, Acc (Precedes graph) number

section

variable (inside : ∀ node < graph.size, group graph node < count)

include inside

theorem mem_present_iff :
    number ∈ present graph count ↔ ∃ node < graph.size, group graph node = number := by
  unfold present
  rw [mem_filter, mem_range, contains_iff_mem, mem_map]
  simp only [mem_range]
  exact and_iff_right_of_imp fun ⟨node, isNode, isGroup⟩ => isGroup ▸ inside node isNode

theorem Sorting.isAfter_start : IsAfter graph count [] (.start graph count) := by
  refine ⟨?_, fun number => ?_, ?_, fun _ member => nomatch member⟩
  · exact congrArg (Array.range count).map (funext (count_edges graph))
  · rw [start, mem_reverse, mem_filter, mem_present_iff inside, count_edges, beq_iff_eq,
      or_iff_left not_mem_nil]
  · rw [append_nil]
    exact nodup_reverse.mpr ((nodup_range.filter _).filter _)

variable (recorded : IsRecorded graph set.packs)
  (closed : ∀ source, ∀ target ∈ graph.successors source, target < graph.size)

include recorded closed

theorem Sorting.IsAfter.step {indegree : Array Nat}
    (isAfter : IsAfter graph count done ⟨indegree, number :: ready⟩) :
    ∃ next, (set.groupSuccessors graph number).foldlM release ⟨indegree, ready⟩ = .ok next ∧
      IsAfter graph count (number :: done) next := by
  obtain ⟨⟨node, isNode, rfl⟩, none⟩ := (isAfter.waits number).mp (.inl mem_cons_self)
  have split := inward_cons recorded isNode fun isDone =>
    (nodup_cons.mp isAfter.distinct).1 (mem_append_right _ isDone)
  have isGroup : ∀ next ∈ set.groupSuccessors graph (group graph node),
      ∃ target < graph.size, group graph target = next := by
    intro next isNext
    obtain ⟨source, _, isLed⟩ := mem_flatMap.mp isNext
    obtain ⟨target, isTarget, isGroup⟩ := mem_map.mp (mem_filter.mp isLed).1
    exact ⟨target, closed source target isTarget, isGroup⟩
  -- A group that waits no longer is led to from no group that has not been visited.
  have notNext : ∀ other, other ∈ group graph node :: ready ∨ other ∈ done →
      other ∉ set.groupSuccessors graph (group graph node) := by
    intro other isOld isNext
    have zero := ((isAfter.waits other).mp isOld).2
    have positive := count_pos_iff.mpr isNext
    rw [split other] at zero
    omega
  obtain ⟨fresh, released, distinct, isFresh⟩ :=
    exists_foldlM_release (inward graph (group graph node :: done)) (fun next isNext => by
      obtain ⟨target, isTarget, rfl⟩ := isGroup next isNext
      exact inside target isTarget) ready
  simp only [← split] at released
  rw [show indegree = _ from isAfter.indegree]
  refine ⟨_, released, rfl, fun other => ?_, ?_, fun other isDone => ?_⟩
  · have old := isAfter.waits other
    have apart := notNext other
    rw [split other] at old
    rw [mem_append, isFresh, or_assoc, mem_cons]
    by_cases isNext : other ∈ set.groupSuccessors graph (group graph node)
    · rw [or_iff_left fun isOld => apart (by rwa [mem_cons, or_assoc, or_left_comm]) isNext]
      exact and_congr_left fun _ => iff_of_true isNext (isGroup other isNext)
    · rw [count_eq_zero.mpr isNext, Nat.add_zero, mem_cons, or_assoc] at old
      rwa [or_iff_right fun new => isNext new.1, or_left_comm]
  · rw [append_assoc]
    refine (perm_middle.symm.append_left fresh).nodup_iff.mp (distinct.append isAfter.distinct ?_)
    exact fun other isNew isOld => notNext other (mem_append.mp isOld) ((isFresh other).mp isNew).1
  · rcases mem_cons.mp isDone with rfl | isDone
    · exact ⟨_, fun first before =>
        isAfter.accessible first (inward_eq_zero_iff.mp none first before)⟩
    · exact isAfter.accessible other isDone

theorem Sorting.IsAfter.exists_visit (fuel : Nat) (isAfter : IsAfter graph count done sorting)
    (enough : count ≤ done.length + fuel) :
    ∃ visited final indegree, visit (set.groupSuccessors graph) fuel sorting = .ok visited ∧
      final.length = done.length + visited ∧ IsAfter graph count final ⟨indegree, []⟩ := by
  induction fuel generalizing done sorting with
  | zero =>
    have below : ∀ number ∈ sorting.ready ++ done, number ∈ range count := by
      intro number isWaiting
      obtain ⟨⟨node, isNode, rfl⟩, _⟩ := (isAfter.waits number).mp (mem_append.mp isWaiting)
      exact mem_range.mpr (inside node isNode)
    have few := (subperm_of_subset isAfter.distinct below).length_le
    rw [length_append, length_range] at few
    have none : sorting.ready = [] := length_eq_zero_iff.mp (by omega)
    exact ⟨0, done, sorting.indegree, rfl, rfl, none ▸ isAfter⟩
  | succ fuel ih =>
    obtain ⟨indegree, ready⟩ := sorting
    cases ready with
    | nil => exact ⟨0, done, indegree, rfl, rfl, isAfter⟩
    | cons number ready =>
      obtain ⟨next, released, isNext⟩ := isAfter.step inside recorded closed
      obtain ⟨visited, final, indegree, visits, isLength, isFinal⟩ :=
        ih isNext (by rw [length_cons]; omega)
      refine ⟨visited + 1, final, indegree, ?_, by rw [isLength, length_cons]; omega, isFinal⟩
      exact Fault.bind_eq_ok.mpr ⟨next, released, Fault.bind_eq_ok.mpr ⟨visited, visits, rfl⟩⟩

/-- The sort visits all groups exactly when no group leads back to itself. -/
theorem Sorting.exists_visit_start :
    ∃ visited, visit (set.groupSuccessors graph) count (.start graph count) = .ok visited ∧
      (visited = (present graph count).length ↔
        ∀ number, ¬ Relation.TransGen (Precedes graph) number number) := by
  obtain ⟨visited, done, _, visits, isLength, isAfter⟩ :=
    (isAfter_start inside).exists_visit inside recorded closed count (Nat.le_add_left _ _)
  refine ⟨visited, visits, ?_⟩
  obtain rfl : done.length = visited := isLength.trans (Nat.zero_add _)
  have fewer : done <+~ present graph count := subperm_of_subset isAfter.distinct
    fun number isDone => (mem_present_iff inside).mpr ((isAfter.waits number).mp (.inr isDone)).1
  constructor
  · intro all number cycle
    obtain ⟨_, _, _, target, next, _, rfl, _⟩ := Relation.TransGen.tail'_iff.mp cycle
    have isGroup := (mem_present_iff inside).mpr ⟨target, closed _ _ next, rfl⟩
    have isDone := (fewer.perm_of_length_le all.ge).mem_iff.mpr isGroup
    have accessible := (isAfter.accessible _ isDone).transGen
    generalize group graph target = number at accessible cycle
    induction accessible with
    | intro number _ ih => exact ih number cycle cycle
  · -- The first group that has not been visited would be ready.
    intro acyclic
    refine Nat.le_antisymm fewer.length_le (subperm_of_subset (nodup_range.filter _) ?_).length_le
    intro number isGroup
    obtain ⟨node, isNode, rfl⟩ := (mem_present_iff inside).mp isGroup
    by_contra isLeft
    obtain ⟨first, isFirst, firstLeft, waitsForNone⟩ :=
      exists_first_group acyclic (fun node => group graph node ∉ done) isNode isLeft
    refine firstLeft (((isAfter.waits _).mpr ⟨⟨first, isFirst, rfl⟩, ?_⟩).resolve_left not_mem_nil)
    refine inward_eq_zero_iff.mpr ?_
    rintro _ ⟨source, target, next, rfl, isTarget, apart⟩
    by_contra sourceLeft
    exact apart (waitsForNone source target sourceLeft next isTarget)

end

/-- Recorded packs can be scheduled exactly when no group leads back to itself. -/
theorem exists_isSchedulable (recorded : IsRecorded graph set.packs)
    (closed : ∀ source, ∀ target ∈ graph.successors source, target < graph.size) :
    ∃ verdict, set.isSchedulable graph = .ok verdict ∧
      (verdict = true ↔ ∀ number, ¬ Relation.TransGen (Precedes graph) number number) := by
  have isClosed : set.isClosed graph := by
    refine all_eq_true.mpr fun node isNode => ?_
    rw [Bool.and_eq_true, decide_eq_true_iff, all_eq_true]
    exact ⟨group_lt recorded (mem_range.mp isNode), fun next isNext =>
      decide_eq_true (closed node next isNext)⟩
  obtain ⟨visited, visits, all⟩ :=
    exists_visit_start (fun _ => group_lt recorded) recorded closed
  refine ⟨_, ?_, beq_iff_eq.trans all⟩
  unfold isSchedulable
  rw [isClosed]
  exact Fault.bind_eq_ok.mpr ⟨visited, visits, rfl⟩

theorem closed_of_isSchedulable {verdict : Bool} (sorted : set.isSchedulable graph = .ok verdict) :
    ∀ source, ∀ target ∈ graph.successors source, target < graph.size := by
  intro source target next
  unfold isSchedulable at sorted
  cases isClosed : set.isClosed graph with
  | false =>
    rw [isClosed] at sorted
    cases sorted
  | true =>
    have both := all_eq_true.mp isClosed source
      (mem_range.mpr (graph.lt_size_of_mem_successors next))
    exact of_decide_eq_true (all_eq_true.mp (Bool.and_eq_true_iff.mp both).2 target next)

theorem acyclic_of_isSchedulable (recorded : IsRecorded graph set.packs)
    (sorted : set.isSchedulable graph = .ok true) :
    ∀ number, ¬ Relation.TransGen (Precedes graph) number number := by
  obtain ⟨verdict, again, acyclic⟩ := exists_isSchedulable recorded (closed_of_isSchedulable sorted)
  exact acyclic.mp (Except.ok.inj (again.symm.trans sorted))

end LinearTrace.PackSet
