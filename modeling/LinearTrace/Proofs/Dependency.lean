import Mathlib.Logic.Relation
import LinearTrace.Dependency.Build

/-!
# Edges and paths

What adding edges does to a graph: it adds exactly the edges that it names, and
keeps the nodes, their operations and the table of indices.  A reference to memory
is only ever the one that the operation of its node has.
-/

namespace LinearTrace

open Array

theorem Fault.bind_eq_ok {α β : Type} {first : Except Fault α} {second : α → Except Fault β}
    {result : β} :
    first >>= second = .ok result ↔ ∃ value, first = .ok value ∧ second value = .ok result := by
  cases first with
  | error fault =>
    constructor
    · intro failed
      cases failed
    · rintro ⟨_, failed, _⟩
      cases failed
  | ok value =>
    constructor
    · intro succeeded
      exact ⟨value, rfl, succeeded⟩
    · rintro ⟨_, ⟨⟩, succeeded⟩
      exact succeeded

namespace DependencyGraph

variable {graph : DependencyGraph} {source target position : Nat} {kind : EdgeKind}

/-- There is a path of one or more edges. -/
def Reaches (graph : DependencyGraph) : Nat → Nat → Prop :=
  Relation.TransGen fun source target => graph.hasEdge source target = true

@[simp] theorem size_modifyNode (graph : DependencyGraph) (position : Nat)
    (change : Node → Node) : (graph.modifyNode position change).size = graph.size :=
  size_modify

theorem node_modifyNode (graph : DependencyGraph) (position other : Nat) (change : Node → Node) :
    (graph.modifyNode position change).node other =
      if position = other ∧ other < graph.size then change (graph.node other)
      else graph.node other := by
  unfold node modifyNode size
  rw [getD_eq_getD_getElem?, getD_eq_getD_getElem?, getElem?_modify]
  by_cases inside : other < graph.nodes.size
  · rw [getElem?_eq_getElem inside]
    by_cases same : position = other <;> simp [same, inside]
  · rw [getElem?_eq_none (Nat.le_of_not_lt inside)]
    simp [inside]

theorem node_link (graph : DependencyGraph) (source target position : Nat) (kind : EdgeKind) :
    (graph.link source target kind).node position =
      { graph.node position with
        provides := (graph.node position).provides ++
          if graph.canLink source target = true ∧ source = position ∧ position < graph.size then
            [⟨target, kind⟩]
          else []
        depends := (graph.node position).depends ++
          if graph.canLink source target = true ∧ target = position ∧ position < graph.size then
            [⟨source, kind⟩]
          else [] } := by
  unfold link
  by_cases able : graph.canLink source target = true
  · rw [if_pos able, node_modifyNode, size_modifyNode, node_modifyNode]
    simp only [able, true_and]
    split <;> split <;> simp only [List.append_nil]
  · simp [able]

theorem hasEdge_link {first second : Nat} :
    (graph.link source target kind).hasEdge first second = true ↔ graph.hasEdge first second ∨
        first = source ∧ second = target ∧ source ≠ target ∧ source < graph.size := by
  unfold hasEdge
  rw [node_link]
  by_cases able : graph.canLink source target = true
  · have apart : source ≠ target := by
      unfold canLink at able
      simp only [Bool.and_eq_true, bne_iff_ne] at able
      exact able.1
    by_cases here : source = first ∧ first < graph.size
    · obtain ⟨rfl, inside⟩ := here
      rw [if_pos ⟨able, rfl, inside⟩, List.any_append, Bool.or_eq_true]
      refine or_congr_right ?_
      have isTarget : ([⟨target, kind⟩] : List Edge).any (·.node == second) = true ↔
          target = second := by simp
      rw [isTarget]
      exact ⟨fun same => ⟨rfl, same.symm, apart, inside⟩, fun ⟨_, same, _⟩ => same.symm⟩
    · rw [if_neg fun both => here both.2, List.append_nil]
      constructor
      · exact .inl
      · rintro (edge | ⟨rfl, _, _, inside⟩)
        · exact edge
        · exact absurd ⟨rfl, inside⟩ here
  · rw [if_neg fun both => able both.1, List.append_nil]
    constructor
    · exact .inl
    rintro (edge | ⟨rfl, rfl, apart, _⟩)
    · exact edge
    · unfold canLink hasEdge at able
      simpa [apart] using able

/-- Edges are added, and operations get the references to memory that they have. -/
structure Keeps (before after : DependencyGraph) : Prop where
  size : after.size = before.size
  indices : after.indices = before.indices
  ops : ∀ position, after.op position = before.op position
  memory : ∀ position memory, (after.node position).memory = some memory →
    (before.node position).memory = some memory ∨
      MemoryRef.ofOperation? after.indices (after.op position) = some memory
  edges : ∀ source target, before.hasEdge source target = true →
    after.hasEdge source target = true

theorem Keeps.refl (graph : DependencyGraph) : graph.Keeps graph :=
  ⟨rfl, rfl, fun _ => rfl, fun _ _ => .inl, fun _ _ => id⟩

theorem Keeps.trans {first second third : DependencyGraph} (left : first.Keeps second)
    (right : second.Keeps third) : first.Keeps third := by
  refine ⟨right.size.trans left.size, right.indices.trans left.indices,
    fun position => (right.ops position).trans (left.ops position), ?_,
    fun source target edge => right.edges source target (left.edges source target edge)⟩
  intro position memory found
  rcases right.memory position memory found with found | own
  · rcases left.memory position memory found with found | own
    · exact .inl found
    · rw [right.indices, right.ops]
      exact .inr own
  · exact .inr own

theorem keeps_modifyNode (graph : DependencyGraph) (position : Nat) (change : Node → Node)
    (op : ∀ node, (change node).op = node.op)
    (provides : ∀ node edge, edge ∈ node.provides → edge ∈ (change node).provides)
    (memory : ∀ node, (change node).memory = node.memory) :
    graph.Keeps (graph.modifyNode position change) := by
  refine ⟨size_modifyNode graph position change, rfl, fun other => ?_,
    fun other reference found => .inl ?_, fun source target edge => ?_⟩
  · unfold DependencyGraph.op
    rw [node_modifyNode]
    split
    · exact op _
    · rfl
  · rw [node_modifyNode] at found
    split at found
    · exact (memory _).symm.trans found
    · exact found
  · unfold hasEdge at edge ⊢
    rw [node_modifyNode]
    split
    · obtain ⟨found, member, isTarget⟩ := List.any_eq_true.mp edge
      exact List.any_eq_true.mpr ⟨found, provides _ found member, isTarget⟩
    · exact edge

theorem keeps_link (graph : DependencyGraph) (source target : Nat) (kind : EdgeKind) :
    graph.Keeps (graph.link source target kind) := by
  unfold link
  split
  · have near : graph.Keeps (graph.modifyNode source fun node =>
        { node with provides := node.provides ++ [⟨target, kind⟩] }) :=
      graph.keeps_modifyNode source _ (fun _ => rfl) (fun _ _ => List.mem_append_left _)
        fun _ => rfl
    exact near.trans (keeps_modifyNode _ target _ (fun _ => rfl) (fun _ _ => id) fun _ => rfl)
  · exact Keeps.refl graph

theorem keeps_foldl {step : DependencyGraph → Nat → DependencyGraph}
    (keeps : ∀ (graph : DependencyGraph) position, graph.Keeps (step graph position))
    (graph : DependencyGraph) (positions : List Nat) :
    graph.Keeps (positions.foldl step graph) := by
  induction positions generalizing graph with
  | nil => exact Keeps.refl graph
  | cons position rest ih => exact (keeps graph position).trans (ih _)

theorem keeps_closeEnd (graph : DependencyGraph) : graph.Keeps graph.closeEnd := by
  unfold closeEnd
  dsimp only
  split
  · refine keeps_foldl (fun graph position => ?_) graph _
    split
    · exact keeps_link graph _ _ _
    · exact Keeps.refl graph
  · exact Keeps.refl graph

theorem keeps_closeStart (graph : DependencyGraph) : graph.Keeps graph.closeStart := by
  unfold closeStart
  split
  · refine keeps_foldl (fun graph position => ?_) graph _
    split
    · exact keeps_link graph _ _ _
    · exact Keeps.refl graph
  · exact Keeps.refl graph

end DependencyGraph

end LinearTrace
