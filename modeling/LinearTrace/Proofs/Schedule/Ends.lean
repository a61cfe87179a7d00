import LinearTrace.Proofs.Dependency.Anchor
import LinearTrace.Proofs.Schedule

/-!
# The ends of a schedule

The schedule of an anchored graph begins with its first node and ends with its
last one.  At the beginning nothing else is ready.  A turn after the last node would
not have waited for it, so it could have been taken before.
-/

namespace LinearTrace.Scheduler

open List

open DependencyGraph

variable {graph : DependencyGraph} {packs : List Pack} {done : List Nat} {turn : Turn}
  {node : Nat}

theorem IsNext.eq_node (isNext : IsNext graph packs done turn) (member : node ∈ turn.nodes packs)
    (unpacked : (graph.node node).pack = none) : turn = .node node := by
  cases turn with
  | node position =>
    rw [mem_singleton.mp member]
  | pack index =>
    have packed := (isNext.group node member index).mpr rfl
    rw [unpacked] at packed
    cases packed

/-- A node whose turn has come may be emitted, also by a schedule that has come less far, as long
as it is ready there with all its companions. -/
theorem IsNext.isEligible {earlier : List Nat} (isNext : IsNext graph packs done turn)
    (member : node ∈ turn.nodes packs)
    (ready : ∀ other ∈ turn.nodes packs, (after graph earlier).isReady other) :
    (after graph earlier).isEligible graph packs node := by
  refine Bool.and_eq_true_iff.mpr ⟨ready node member, List.all_eq_true.mpr fun other isOther => ?_⟩
  unfold companions at isOther
  cases isPack : (graph.node node).pack with
  | none =>
    rw [isPack] at isOther
    cases isOther
  | some index =>
    rw [isPack] at isOther
    have isTurn := (isNext.group node member index).mp isPack
    refine ready other ?_
    rw [isTurn]
    exact isOther

section

variable (anchored : graph.IsAnchored)

include anchored

theorem IsNext.eq_first (isNext : IsNext graph packs [] turn)
    (unpacked : (graph.node 0).pack = none) : turn = .node 0 := by
  obtain ⟨best, member, _⟩ := isNext.best
  have isFirst : best = 0 := by
    by_contra notFirst
    have waitsForNothing : graph.predecessors best = [] :=
      eq_nil_iff_forall_not_mem.mpr fun source previous =>
        not_mem_nil (isNext.ready best member source previous)
    exact anchored.waits best (Nat.pos_of_ne_zero notFirst) (isNext.inside best member)
      waitsForNothing
  rw [isFirst] at member
  exact isNext.eq_node member unpacked

theorem eq_nil_of_last {later : List Turn} (mirrored : graph.IsMirrored)
    (inOrder : InOrder graph packs done (.node (graph.size - 1) :: later)) : later = [] := by
  cases later with
  | nil => rfl
  | cons turn later =>
    exfalso
    obtain ⟨isLast, isNext, _⟩ := inOrder
    -- What is emitted afterwards does not wait for the last node, so it was ready before.
    have ready : ∀ other ∈ turn.nodes packs, (after graph done).isReady other = true := by
      intro other isOther
      refine isReady_after_iff.mpr ⟨isNext.inside other isOther, fun isDone =>
        isNext.fresh other isOther (mem_append_left _ isDone), fun source previous => ?_⟩
      rcases mem_append.mp (isNext.ready other isOther source previous) with isDone | isNode
      · exact isDone
      · have next := mirrored.mem_iff.mpr previous
        rw [mem_singleton.mp isNode, anchored.last] at next
        cases next
    obtain ⟨best, isBest, outranks⟩ := isLast.best
    rw [mem_singleton.mp isBest] at outranks
    obtain ⟨node, member, _⟩ := isNext.best
    have inside := isNext.inside node member
    have notLast : node ≠ graph.size - 1 := fun same =>
      isNext.fresh node member (mem_append_right _ (mem_singleton.mpr same))
    have lowest := anchored.priority node
    rcases outranks node inside (isNext.isEligible member ready) with higher | ⟨_, before⟩
    · rw [anchored.lastPriority] at higher
      omega
    · omega

/-- The schedule of an anchored graph begins with the first node and ends with the last. -/
theorem exists_ends {turns : List Turn} (mirrored : graph.IsMirrored)
    (firstUnpacked : (graph.node 0).pack = none)
    (lastUnpacked : (graph.node (graph.size - 1)).pack = none)
    (inOrder : InOrder graph packs [] turns)
    (complete : ∀ node < graph.size, node ∈ turns.flatMap (Turn.nodes packs)) :
    ∃ between, turns = .node 0 :: (between ++ [.node (graph.size - 1)]) := by
  have large := anchored.large
  obtain ⟨turn, taken, emits⟩ := mem_flatMap.mp (complete (graph.size - 1) (by omega))
  obtain ⟨_, isNext⟩ := inOrder.exists_isNext taken
  obtain rfl := isNext.eq_node emits lastUnpacked
  obtain ⟨before, later, rfl⟩ := append_of_mem taken
  obtain rfl := eq_nil_of_last anchored mirrored (inOrder_append.mp inOrder).2
  cases before with
  | nil =>
    have isFirst := inOrder.1.eq_first anchored firstUnpacked
    rw [Turn.node.injEq] at isFirst
    omega
  | cons turn between =>
    obtain rfl := inOrder.1.eq_first anchored firstUnpacked
    exact ⟨between, rfl⟩

end

end LinearTrace.Scheduler
