import LinearTrace.Proofs.Lowering.Turn
import LinearTrace.Proofs.Vectorize.Relaxation

/-!
# Packed graphs

Guards are moved in front of the early exit, and operations with one code are put
into packs.  Neither takes from a node anything that it has to wait for, so the
graph of a loop can still be emitted.
-/

namespace LinearTrace

open List PackSet DependencyGraph

variable {packing final : Packing} {packs : PackSet} {label : Operation} {supply : BoxSupply}
  {ops body : List Operation}

variable {graph : DependencyGraph}

namespace DependencyGraph

variable {graph before after plain : DependencyGraph} {header : List Box}

/-- A graph whose schedules begin and end like the loop and are in scope. -/
structure IsWired (header : List Box) (graph : DependencyGraph) : Prop where
  mirrored : graph.IsMirrored
  anchored : graph.IsAnchored
  supplied : graph.IsSupplied header

theorem IsWired.of_sameEdges (wired : before.IsWired header) (same : before.SameEdges after)
    (sameOp : ∀ node, after.op node = before.op node)
    (priority : ∀ node, (after.node node).priority = (before.node node).priority) :
    after.IsWired header where
  mirrored := wired.mirrored.of_sameEdges same
  anchored := wired.anchored.of_sameEdges same priority
  supplied := wired.supplied.of_sameEdges same sameOp

theorem isMoveStable_isWired (header : List Box) (earlyExit count : Nat) :
    IsMoveStable earlyExit count (fun node => 0 < node ∧ node + 1 < count) fun graph =>
      graph.IsWired header ∧ (graph.op earlyExit).result = none where
  link wired isSize isSource notFirst inside := by
    obtain ⟨wired, void⟩ := wired
    subst isSize
    refine ⟨⟨wired.mirrored.link .pullUp (Nat.lt_of_succ_lt isSource.2) inside,
      wired.anchored.link .pullUp isSource.2 notFirst, wired.supplied.link _ _ .pullUp⟩, ?_⟩
    rw [op_link]
    exact void
  reroot wired isSize inner := by
    obtain ⟨wired, void⟩ := wired
    subst isSize
    have inside := Nat.lt_of_succ_lt inner.2
    refine ⟨⟨?_, wired.anchored.reroot wired.mirrored inner.1 inside earlyExit,
      wired.supplied.reroot void _⟩, ?_⟩
    · exact (isMoveStable_isMirrored earlyExit _).reroot wired.mirrored rfl inside
    · rw [op_reroot]
      exact void
  raise wired isSize inner := by
    obtain ⟨wired, void⟩ := wired
    subst isSize
    refine ⟨⟨(isMoveStable_isMirrored earlyExit _).raise wired.mirrored rfl
      (Nat.lt_of_succ_lt inner.2), wired.anchored.prioritize inner.1 (Nat.ne_of_lt inner.2)
      fun node positive => ?_, wired.supplied.prioritize _ _⟩, ?_⟩
    · exact Int.le_trans positive (Int.le_max_left _ _)
    · rw [op_modifyNode]
      · exact void
      · exact fun _ => rfl

theorem isWired_pullUpRelaxedGuards {closing : Operation}
    (loop : IsTidyLoop ops label body closing supply) (built : ofOperations ops = .ok plain) :
    plain.pullUpRelaxedGuards.2.IsWired label.argBoxes ∧
      plain.pullUpRelaxedGuards.2.size = plain.size ∧
      ∀ node, plain.pullUpRelaxedGuards.2.op node = plain.op node := by
  have wired : plain.IsWired label.argBoxes := by
    have supplied := isSupplied_of_isLoop loop.toIsLoop loop.tidy built
    obtain rfl := loop.shape
    exact ⟨isMirrored_of_ofOperations built, isAnchored_of_ofOperations loop.isLabel (by simp) built,
      supplied⟩
  -- The early exit is a guard, so it defines nothing.
  have void : ∀ earlyExit, plain.earlyExit = some earlyExit →
      (plain.op earlyExit).result = none := by
    intro earlyExit isEarlyExit
    obtain ⟨inside, isOpcode⟩ := earlyExit_eq_some built isEarlyExit
    refine (wired.supplied.tidy earlyExit inside).void ?_
    rw [isOpcode]
    rfl
  have holds : IsMoveStable.Holds (IsWired label.argBoxes) plain plain.pullUpRelaxedGuards.2 := by
    cases isEarlyExit : plain.earlyExit with
    | none =>
      refine pullUpRelaxedGuards_keeps built wired (inner_of_isLoop loop.toIsLoop built)
        fun earlyExit found => ?_
      rw [isEarlyExit] at found
      cases found
    | some exit =>
      have moved : IsMoveStable.Holds (fun graph =>
          graph.IsWired label.argBoxes ∧ (graph.op exit).result = none) plain
          plain.pullUpRelaxedGuards.2 := by
        refine pullUpRelaxedGuards_keeps built ⟨wired, void exit isEarlyExit⟩
          (inner_of_isLoop loop.toIsLoop built) fun earlyExit found => ?_
        rw [isEarlyExit] at found
        cases found
        exact isMoveStable_isWired label.argBoxes exit plain.size
      exact ⟨moved.property.1, moved.size, moved.op⟩
  exact ⟨holds.property, holds.size, holds.op⟩

end DependencyGraph

/-! ## Packs of one code -/

variable {targets : Target → Prop}

theorem Pack.IsSound.vectorForm? {pack : Pack} {node : Nat} (sound : pack.IsSound targets graph)
    (isMember : node ∈ pack.members) :
    (graph.op node).opcode.vectorForm? ≠ none := by
  obtain ⟨target, _, hasForm⟩ := sound.hasForm
  obtain ⟨vector, isForm⟩ := Option.ne_none_iff_exists'.mp hasForm
  rw [← (sound.alike node isMember).1, Target.isForm _ isForm]
  exact Option.some_ne_none vector

/-- However the packs were found, each has the lanes of the array that its first member accesses. -/
theorem Packing.Found.laneType_eq (found : Packing.Found targets graph packing) :
    packing.packs.Every fun pack => pack.laneType = laneTypeAt graph pack.first := by
  refine (found.every (fun other _ sameOp _ _ _ left _ _ _ => ?_)
    fun _ _ _ _ _ leftHolds _ => leftHolds).2.2
  change laneTypeAt other left = laneTypeAt graph left
  unfold laneTypeAt
  rw [sameOp]

theorem DependencyGraph.IsWired.assign {header : List Box}
    (wired : graph.IsWired header) (set : PackSet) : (set.assign graph).IsWired header := by
  refine wired.of_sameEdges (set.sameEdges_assign graph) (set.op_assign graph) fun node => ?_
  by_cases inside : node < graph.size
  · rw [node_assign set inside]
  · have outside := Nat.le_of_not_lt inside
    rw [node_of_size_le outside, node_of_size_le (by rwa [size_assign])]

/-- The graph knows its packs, and each is sound. -/
structure Packing.IsCombined (graph : DependencyGraph) (final : Packing) : Prop where
  assigned : final.graph = final.packs.assign graph
  recorded : PackSet.IsRecorded final.graph final.packs.packs
  sound : final.packs.Every (Pack.IsSound (fun _ => True) graph)

theorem Packing.isCombined_of_combine {packs : PackSet} {final : Packing}
    (found : Packing.Found (fun _ => True) graph ⟨graph, packs⟩)
    (combined : combine ⟨graph, packs⟩ = .ok () final) : IsCombined graph final :=
  have ⟨⟨_, _, sound⟩, recorded⟩ := found.isRecorded combined
  ⟨(join_eq_ok (join_of_combine combined)).1, recorded, sound⟩

/-- Once packs have been combined, the graph of a loop can be emitted. -/
theorem Packing.canEmit_of_combine {jump : Operation} {plain : DependencyGraph}
    (loop : IsTidyLoop ops label body jump supply) (isJump : jump.opcode = .jump)
    (built : ofOperations ops = .ok plain)
    (found : Packing.Found (fun _ => True) plain.pullUpRelaxedGuards.2
      ⟨plain.pullUpRelaxedGuards.2, packs⟩)
    (combined : combine ⟨plain.pullUpRelaxedGuards.2, packs⟩ = .ok () final) :
    Lowering.CanEmit final.graph final.packs.packs label supply.next := by
  obtain ⟨isAssigned, recorded, sound⟩ := isCombined_of_combine found combined
  obtain ⟨wired, size, sameOp⟩ := isWired_pullUpRelaxedGuards loop built
  have isWired : final.graph.IsWired label.argBoxes := isAssigned ▸ wired.assign final.packs
  have isOp : ∀ node, final.graph.op node = plain.pullUpRelaxedGuards.2.op node := fun node =>
    isAssigned ▸ final.packs.op_assign _ node
  have isPlain : ∀ node, final.graph.op node = plain.op node := fun node =>
    (isOp node).trans (sameOp node)
  have isSize : final.graph.size = plain.size := by
    rw [isAssigned, size_assign]
    exact size
  obtain ⟨isFirst, isLast⟩ := ops_of_isLoop loop.toIsLoop built
  refine ⟨isWired.mirrored, isWired.anchored, isWired.supplied, recorded, ?_, ?_,
    (isPlain 0).trans isFirst, loop.isLabel, loop.distinct, ?_, ?_, ?_⟩
  · intro pack isPack member isMember
    rw [isOp, isOp]
    exact ((sound pack isPack).alike member isMember).1.symm
  · -- Labels and jumps have no vector form, so neither end is packed.
    intro pack isPack member isMember
    have inside := recorded.inside pack isPack member isMember
    have hasForm := (sound pack isPack).vectorForm? isMember
    rw [sameOp] at hasForm
    constructor
    · refine Nat.pos_of_ne_zero fun same => hasForm ?_
      rw [same, isFirst, loop.isLabel]
      rfl
    · refine Nat.lt_of_le_of_ne inside fun same => hasForm ?_
      rw [show member = plain.size - 1 by omega, isLast, isJump]
      rfl
  · rw [isPlain, isSize, isLast]
    exact isJump
  · exact fun box isInput => loop.toIsLoop.id_lt_of_mem_boxes loop.above
      (mem_append_left _ (mem_append_left _ isInput))
  · intro node box isResult
    rw [isPlain] at isResult
    obtain ⟨op, isOp, isResult⟩ :=
      (lists_of_ofOperations built).getElem?_op isResult
    exact (loop.above op (mem_of_getElem? isOp)).2 box isResult

end LinearTrace
