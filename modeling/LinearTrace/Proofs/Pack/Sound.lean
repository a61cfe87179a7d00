import LinearTrace.Proofs.Pack.Lanes
import LinearTrace.Proofs.Pack.Sorting

/-!
# Sound packs

Packs that have been combined are disjoint and recorded in the graph.  The members
of each are two or more operations of one kind, in program order, and no path leads
from one of them to another.  Contracting every pack to one vertex leaves a graph
without cycles.  None of this depends on how seeding, growing and combining
alternated before.
-/

namespace LinearTrace

open List PackSet

variable {node : Nat} {first second : Nat ⊕ Nat}

namespace DependencyGraph

variable {graph : DependencyGraph} {left right : Nat}

/-! ## Paths between nodes -/

theorem IsMirrored.hasPath_iff (mirrored : graph.IsMirrored) :
    graph.hasPath left right ↔ left = right ∨ graph.Reaches left right := by
  constructor
  · intro path
    unfold hasPath at path
    rw [Bool.or_eq_true, beq_iff_eq, contains_iff_mem] at path
    have found : ∀ node ∈ graph.reachable left, left = node ∨ graph.Reaches left node := by
      refine Search.forall_mem_visit _ (fun node isStart => .inl (mem_singleton.mp isStart).symm) ?_
      intro node reached next isNext
      have edge := hasEdge_iff.mpr isNext
      exact .inr (reached.elim (· ▸ .single edge) (·.tail edge))
    exact path.elim .inl (found right)
  · rintro (rfl | path)
    · simp [hasPath]
    · obtain ⟨_, _, edge⟩ := Relation.TransGen.tail'_iff.mp path
      exact hasPath_of_reaches path (mirrored.target_lt (hasEdge_iff.mp edge))

/-! ## Contracted packs -/

/-- What a node becomes when packs are contracted: the pack that it belongs to, or itself. -/
def vertex (graph : DependencyGraph) (node : Nat) : Nat ⊕ Nat :=
  match (graph.node node).pack with
  | some pack => .inr pack
  | none => .inl node

/-- An edge of the graph in which each pack is contracted to one vertex: it comes from an edge
between different nodes. -/
def ContractedEdge (graph : DependencyGraph) (first second : Nat ⊕ Nat) : Prop :=
  ∃ source target, source ≠ target ∧ graph.hasEdge source target = true ∧
    graph.vertex source = first ∧ graph.vertex target = second

/-- An edge of the contracted graph that does not come from inside a pack. -/
def OuterEdge (graph : DependencyGraph) (first second : Nat ⊕ Nat) : Prop :=
  graph.ContractedEdge first second ∧ first ≠ second

/-- The number of a vertex among the groups of the graph. -/
def groupNumber (graph : DependencyGraph) : Nat ⊕ Nat → Nat
  | .inl node => node
  | .inr pack => graph.size + pack

theorem groupNumber_vertex (graph : DependencyGraph) (node : Nat) :
    graph.groupNumber (graph.vertex node) = group graph node := by
  unfold vertex group
  cases (graph.node node).pack <;> rfl

/-- The vertex of the groups with a number. -/
def vertexAt (graph : DependencyGraph) (number : Nat) : Nat ⊕ Nat :=
  if number < graph.size then .inl number else .inr (number - graph.size)

theorem vertexAt_group (isNode : node < graph.size) :
    graph.vertexAt (group graph node) = graph.vertex node := by
  unfold vertexAt vertex group
  cases (graph.node node).pack with
  | none => exact if_pos isNode
  | some pack => simp

theorem pack_eq_of_vertex_eq (same : graph.vertex left = graph.vertex right) (apart : left ≠ right)
    : ∃ pack, (graph.node left).pack = some pack ∧ (graph.node right).pack = some pack := by
  unfold vertex at same
  cases isLeft : (graph.node left).pack with
  | none =>
    cases isRight : (graph.node right).pack with
    | none =>
      rw [isLeft, isRight] at same
      exact absurd (Sum.inl.inj same) apart
    | some pack =>
      rw [isLeft, isRight] at same
      cases same
  | some pack =>
    cases isRight : (graph.node right).pack with
    | none =>
      rw [isLeft, isRight] at same
      cases same
    | some other =>
      rw [isLeft, isRight] at same
      cases same
      exact ⟨pack, rfl, rfl⟩

end DependencyGraph

namespace PackSet

open DependencyGraph

variable {graph : DependencyGraph} {set : PackSet}

/-- Groups lead back to themselves exactly where vertices do. -/
theorem acyclic_iff (closed : ∀ source, ∀ target ∈ graph.successors source, target < graph.size) :
    (∀ number, ¬ Relation.TransGen (Precedes graph) number number) ↔
      ∀ corner, ¬ Relation.TransGen graph.OuterEdge corner corner := by
  constructor
  · refine fun acyclic corner cycle => acyclic _ (cycle.lift graph.groupNumber ?_)
    rintro _ _ ⟨⟨source, target, _, edge, rfl, rfl⟩, different⟩
    have next := hasEdge_iff.mp edge
    refine ⟨source, target, next, (groupNumber_vertex graph source).symm,
      (groupNumber_vertex graph target).symm, fun same => different ?_⟩
    rw [groupNumber_vertex, groupNumber_vertex] at same
    rw [← vertexAt_group (lt_size_of_mem_successors next), same,
      vertexAt_group (closed source target next)]
  · refine fun acyclic number cycle => acyclic _ (cycle.lift graph.vertexAt ?_)
    rintro _ _ ⟨source, target, next, rfl, rfl, apart⟩
    unfold Function.onFun
    rw [vertexAt_group (lt_size_of_mem_successors next), vertexAt_group (closed source target next)]
    refine ⟨⟨source, target, fun same => apart (same ▸ rfl), hasEdge_iff.mpr next, rfl, rfl⟩,
      fun same => apart ?_⟩
    rw [← groupNumber_vertex, same, groupNumber_vertex]

section

variable (recorded : IsRecorded graph set.packs)

include recorded

/-- Contracting the packs of a graph that can be scheduled leaves no cycle, since the members of a
pack are independent. -/
theorem not_contractedCycle (apart : set.Every (Pack.IsApart graph))
    (sorted : set.isSchedulable graph = .ok true) (corner : Nat ⊕ Nat) :
    ¬ Relation.TransGen graph.ContractedEdge corner corner := by
  have outer : ∀ first second, graph.ContractedEdge first second → graph.OuterEdge first second := by
    intro first second edge
    refine ⟨edge, fun same => ?_⟩
    obtain ⟨source, target, different, edge, rfl, rfl⟩ := edge
    obtain ⟨index, ofSource, ofTarget⟩ := pack_eq_of_vertex_eq same different
    obtain ⟨pack, found, sourceMember⟩ := (recorded.pack_iff source index).mp ofSource
    obtain ⟨pack', found', targetMember⟩ := (recorded.pack_iff target index).mp ofTarget
    cases found.symm.trans found'
    have isPack := mem_of_getElem? found
    exact not_reaches_of_independent
      ((apart pack isPack).independent sourceMember targetMember different)
      (recorded.inside pack isPack target targetMember) (.single edge)
  exact fun cycle => (acyclic_iff (closed_of_isSchedulable sorted)).mp
    (acyclic_of_isSchedulable recorded sorted) corner (cycle.lift id outer)

/-- Searches and sorts are exact.  A search from one node finds another exactly when there is a
path.  A sort of the groups ends, and it visits all of them exactly when the graph with its packs
contracted, less the edges inside packs, has no cycle. -/
theorem hasPath_iff_and_isSchedulable_iff (mirrored : graph.IsMirrored) :
    (∀ source target, graph.hasPath source target ↔
      source = target ∨ graph.Reaches source target) ∧
    ∃ verdict, set.isSchedulable graph = .ok verdict ∧
      (verdict = true ↔ ∀ corner, ¬ Relation.TransGen graph.OuterEdge corner corner) := by
  have closed : ∀ source, ∀ target ∈ graph.successors source, target < graph.size :=
    fun _ _ next => mirrored.target_lt next
  obtain ⟨verdict, sorted, acyclic⟩ := exists_isSchedulable recorded closed
  exact ⟨fun _ _ => mirrored.hasPath_iff, verdict, sorted, acyclic.trans (acyclic_iff closed)⟩

end

end PackSet

/-! ## Combined packs -/

namespace Packing

variable {graph : DependencyGraph} {target : Target} {packing final : Packing}

/-- Packs as a graph must have them to be emitted as vector operations of a target. -/
structure IsPacked (target : Target) (packing : Packing) : Prop where
  nonempty : packing.packs.packs ≠ []
  disjoint : packing.packs.packs.Pairwise fun left right =>
    ∀ member ∈ left.members, member ∉ right.members
  wide : ∀ pack ∈ packing.packs.packs, 2 ≤ pack.members.length
  ordered : ∀ pack ∈ packing.packs.packs, pack.members.Pairwise (· < ·)
  alike : ∀ pack ∈ packing.packs.packs, ∀ left ∈ pack.members, ∀ right ∈ pack.members,
    (packing.graph.op left).IsLike (packing.graph.op right)
  hasForm : ∀ pack ∈ packing.packs.packs, ∀ member ∈ pack.members,
    target.vectorForm? (packing.graph.op member).opcode ≠ none
  apart : ∀ pack ∈ packing.packs.packs, ∀ left ∈ pack.members, ∀ right ∈ pack.members,
    left ≠ right → ¬ packing.graph.Reaches left right
  recorded : ∀ node index, (packing.graph.node node).pack = some index ↔
    ∃ pack, packing.packs.packs[index]? = some pack ∧ node ∈ pack.members
  acyclic : ∀ corner, ¬ Relation.TransGen packing.graph.ContractedEdge corner corner

/-- Combining that succeeds leaves sound packs in a graph with the edges and operations that it
had before. -/
theorem isPacked_of_combine (found : Found (Eq target) graph packing)
    (combined : combine packing = .ok () final) :
    final.IsPacked target ∧ graph.SameEdges final.graph ∧
      ∀ node, final.graph.op node = graph.op node := by
  obtain ⟨⟨same, sameOp, sound⟩, recorded⟩ := found.isRecorded combined
  have apart : final.packs.Every (Pack.IsApart final.graph) := fun pack isPack =>
    (Pack.isApart_iff same).mpr (sound pack isPack).apart
  refine ⟨?_, same, sameOp⟩
  exact {
    nonempty := packs_ne_nil_of_combine combined
    disjoint := by
      obtain ⟨_, _, longer, isDisjoint⟩ := join_eq_ok (join_of_combine combined)
      rw [isDisjoint]
      exact PackSet.pairwise_disjointFrom [] longer.packs
    wide := fun pack isPack => (sound pack isPack).wide
    ordered := fun pack isPack => List.isChain_iff_pairwise.mp (sound pack isPack).ordered
    alike := fun pack isPack left isLeft right isRight => by
      rw [sameOp, sameOp]
      exact ((sound pack isPack).alike left isLeft).symm.trans
        ((sound pack isPack).alike right isRight)
    hasForm := fun pack isPack member isMember => by
      obtain ⟨_, rfl, hasForm⟩ := (sound pack isPack).hasForm
      rwa [sameOp, ← ((sound pack isPack).alike member isMember).1]
    apart := fun pack isPack left isLeft right isRight different =>
      DependencyGraph.not_reaches_of_independent
        ((apart pack isPack).independent isLeft isRight different)
        (recorded.inside pack isPack right isRight)
    recorded := recorded.pack_iff
    acyclic := PackSet.not_contractedCycle recorded apart (combine_eq_ok combined).2.2 }

end Packing

open SpreadLoads in
/-- Two loads and the two stores of what they load become two packs. -/
theorem isPacked_of_spreadLoads :
    Packing.combine ⟨SpreadLoads.graph, PackSet.found SpreadLoads.graph .sse⟩ =
        .ok () ⟨both.assign SpreadLoads.graph, both⟩ ∧
      Packing.IsPacked .sse ⟨both.assign SpreadLoads.graph, both⟩ :=
  ⟨combines, (Packing.isPacked_of_combine (.grow (.seed .start .sse rfl) .sse rfl) combines).1⟩

open SpreadLoads in
/-- A load leads to the store of what it loads, and their packs are on no cycle. -/
theorem hasPath_and_acyclic_of_spreadLoads :
    (both.assign SpreadLoads.graph).IsMirrored ∧
      PackSet.IsRecorded (both.assign SpreadLoads.graph) both.packs ∧
      (both.assign SpreadLoads.graph).hasPath 1 3 ∧
      ∀ corner, ¬ Relation.TransGen (both.assign SpreadLoads.graph).OuterEdge corner corner := by
  have mirrored := (DependencyGraph.isMirrored_of_ofOperations built).of_sameEdges
    (PackSet.sameEdges_assign both SpreadLoads.graph)
  have found : Packing.Found (Eq .sse) SpreadLoads.graph
      ⟨SpreadLoads.graph, PackSet.found SpreadLoads.graph .sse⟩ :=
    .grow (.seed .start _ rfl) _ rfl
  have recorded := (found.isRecorded combines).2
  obtain ⟨path, verdict, sorted, acyclic⟩ :=
    PackSet.hasPath_iff_and_isSchedulable_iff recorded mirrored
  have isTrue := Except.ok.inj (sorted.symm.trans (Packing.combine_eq_ok combines).2.2)
  exact ⟨mirrored, recorded, (path 1 3).mpr (Or.inr (.single (by decide +kernel))),
    acyclic.mp isTrue⟩

end LinearTrace
