import LinearTrace.Proofs.Dependency.Chain
import LinearTrace.Proofs.Pack.Lanes
import LinearTrace.Proofs.Pack.Sorting
import LinearTrace.Proofs.Schedule

/-!
# Schedules of combined packs

Once packs have been combined the graph can be scheduled to its end, whatever the
priorities of its nodes are: every node is emitted once, every pack as one group,
and nothing before what it depends on.
-/

namespace LinearTrace

variable {graph : DependencyGraph}

/-- The graph with other priorities. -/
def DependencyGraph.withPriorities (graph : DependencyGraph) (priority : Nat → Int) :
    DependencyGraph :=
  { graph with
    nodes := graph.nodes.mapIdx fun position node => { node with priority := priority position } }

namespace DependencyGraph

theorem size_withPriorities (graph : DependencyGraph) (priority : Nat → Int) :
    (graph.withPriorities priority).size = graph.size :=
  Array.size_mapIdx

theorem node_withPriorities (graph : DependencyGraph) (priority : Nat → Int) (position : Nat) :
    ∃ level, (graph.withPriorities priority).node position =
      { graph.node position with priority := level } := by
  by_cases inside : position < graph.size
  · refine ⟨priority position, ?_⟩
    unfold withPriorities node
    rw [Array.getD_eq_getD_getElem?, Array.getD_eq_getD_getElem?, Array.getElem?_mapIdx,
      Array.getElem?_eq_getElem inside]
    rfl
  · have outside := Nat.le_of_not_lt inside
    rw [node_of_size_le outside, node_of_size_le (by rwa [size_withPriorities])]
    exact ⟨_, rfl⟩

theorem sameEdges_withPriorities (graph : DependencyGraph) (priority : Nat → Int) :
    graph.SameEdges (graph.withPriorities priority) := by
  refine ⟨graph.size_withPriorities priority, fun position => ?_, fun position => ?_⟩
  · obtain ⟨level, isNode⟩ := graph.node_withPriorities priority position
    rw [isNode]
  · obtain ⟨level, isNode⟩ := graph.node_withPriorities priority position
    rw [isNode]

theorem pack_withPriorities (graph : DependencyGraph) (priority : Nat → Int) (position : Nat) :
    ((graph.withPriorities priority).node position).pack = (graph.node position).pack := by
  obtain ⟨level, isNode⟩ := graph.node_withPriorities priority position
  rw [isNode]

end DependencyGraph

theorem PackSet.IsRecorded.withPriorities {packs : List Pack} (recorded : IsRecorded graph packs)
    (priority : Nat → Int) : IsRecorded (graph.withPriorities priority) packs := by
  refine ⟨fun node index => ?_, ?_, recorded.distinct⟩
  · rw [graph.pack_withPriorities]
    exact recorded.pack_iff node index
  · rw [graph.size_withPriorities]
    exact recorded.inside

theorem PackSet.precedes_withPriorities (graph : DependencyGraph) (priority : Nat → Int) :
    Precedes (graph.withPriorities priority) = Precedes graph := by
  have isGroup : group (graph.withPriorities priority) = group graph := by
    funext node
    unfold group
    rw [graph.pack_withPriorities, graph.size_withPriorities]
  unfold Precedes
  rw [isGroup, funext (graph.sameEdges_withPriorities priority).successors]

/-- After packs have been combined, the schedule of the graph is not cut short: it emits every node
once, packed nodes with their pack, and no node before those it depends on. -/
theorem exists_schedule_of_combine {ops : List Operation} {plain : DependencyGraph}
    (built : DependencyGraph.ofOperations ops = .ok plain)
    (isGraph : graph = plain ∨ graph = plain.pullUpRelaxedGuards.2) {targets : Target → Prop}
    {packing final : Packing} (found : Packing.Found targets graph packing)
    (combined : Packing.combine packing = .ok () final) (priority : Nat → Int) :
    ∃ turns : List (Turn × Nat),
      (final.graph.withPriorities priority).schedule final.packs.packs [] = (turns, none) ∧
      ((turns.map Prod.fst).flatMap (Turn.nodes final.packs.packs)).Perm (List.range graph.size) ∧
      (∀ node, .node node ∈ turns.map Prod.fst → ∀ pack ∈ final.packs.packs,
        node ∉ pack.members) ∧
      (∀ index < final.packs.packs.length, (turns.map Prod.fst).count (.pack index) = 1) ∧
      ∀ before turn later, turns.map Prod.fst = before ++ turn :: later →
        ∀ node ∈ turn.nodes final.packs.packs, ∀ source ∈ graph.predecessors node,
          source ∈ before.flatMap (Turn.nodes final.packs.packs) := by
  have mirrored : graph.IsMirrored := by
    rcases isGraph with rfl | rfl
    · exact DependencyGraph.isMirrored_of_ofOperations built
    · exact DependencyGraph.isMirrored_pullUpRelaxedGuards built
  obtain ⟨⟨sameEdges, _, sound⟩, recorded⟩ := found.isRecorded combined
  have acyclic := PackSet.acyclic_of_isSchedulable recorded (Packing.combine_eq_ok combined).2.2
  rw [← PackSet.precedes_withPriorities final.graph priority] at acyclic
  have recorded := recorded.withPriorities priority
  have same := sameEdges.trans (final.graph.sameEdges_withPriorities priority)
  have isMirrored := mirrored.of_sameEdges same
  have isApart : final.packs.Every (Pack.IsApart (final.graph.withPriorities priority)) :=
    fun pack isPack => (Pack.isApart_iff same).mpr (sound pack isPack).apart
  have scheduled : (final.graph.withPriorities priority).schedule final.packs.packs [] =
      (_, none) :=
    Prod.ext rfl (Scheduler.schedule_eq_none isMirrored recorded isApart acyclic)
  obtain ⟨inOrder, complete⟩ := Scheduler.inOrder_of_schedule isMirrored recorded scheduled
  refine ⟨_, scheduled, same.size ▸ complete, ?_, ?_, ?_⟩
  · intro node taken pack isPack isMember
    obtain ⟨index, isIndex⟩ := List.mem_iff_getElem?.mp isPack
    have isTurn := (inOrder.group taken node List.mem_cons_self index).mp
      ((recorded.pack_iff node index).mpr ⟨pack, isIndex, isMember⟩)
    cases isTurn
  · intro index inside
    refine inOrder.count_pack recorded (fun node isNode => ?_) inside
    exact complete.mem_iff.mpr (List.mem_range.mpr isNode)
  · intro before turn later split node emits source previous
    rw [split] at inOrder
    rw [← same.predecessors] at previous
    exact inOrder.ready node emits source previous

open SpreadLoads in
/-- Loads and stores in two packs are scheduled to the end, with the last nodes going first. -/
theorem exists_schedule_of_spreadLoads :
    DependencyGraph.ofOperations SpreadLoads.ops = .ok SpreadLoads.graph ∧
    Packing.combine ⟨SpreadLoads.graph, PackSet.found SpreadLoads.graph .sse⟩ =
      .ok () ⟨both.assign SpreadLoads.graph, both⟩ ∧
    ∃ turns : List (Turn × Nat),
      ((both.assign SpreadLoads.graph).withPriorities fun position => position).schedule
        both.packs [] = (turns, none) ∧
      ((turns.map Prod.fst).flatMap (Turn.nodes both.packs)).Perm
        (List.range SpreadLoads.graph.size) ∧
      ∀ index < 2, (turns.map Prod.fst).count (.pack index) = 1 := by
  have found : Packing.Found (Eq .sse) SpreadLoads.graph
      ⟨SpreadLoads.graph, PackSet.found SpreadLoads.graph .sse⟩ :=
    .grow (.seed .start _ rfl) _ rfl
  obtain ⟨turns, scheduled, complete, _, packed, _⟩ :=
    exists_schedule_of_combine built (Or.inl rfl) found combines fun position => position
  exact ⟨built, combines, turns, scheduled, complete, packed⟩

end LinearTrace
