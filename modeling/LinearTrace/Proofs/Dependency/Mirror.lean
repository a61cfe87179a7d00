import Mathlib.Data.List.Count
import LinearTrace.Proofs.Dependency

/-!
# Both ends of an edge

What adding and removing an edge does to the neighbours of a node.  Every edge is
kept at both of its ends, and adding and removing edges between nodes of the graph
keeps it that way.
-/

namespace LinearTrace

open List

namespace DependencyGraph

variable {graph before after : DependencyGraph} {source target position : Nat} {kind : EdgeKind}

/-! ## Neighbours -/

/-- Two graphs with the same edges. -/
structure SameEdges (before after : DependencyGraph) : Prop where
  size : after.size = before.size
  provides : ∀ position, (after.node position).provides = (before.node position).provides
  depends : ∀ position, (after.node position).depends = (before.node position).depends

theorem SameEdges.refl (graph : DependencyGraph) : graph.SameEdges graph :=
  ⟨rfl, fun _ => rfl, fun _ => rfl⟩

theorem SameEdges.trans {first second third : DependencyGraph} (left : first.SameEdges second)
    (right : second.SameEdges third) : first.SameEdges third :=
  ⟨right.size.trans left.size,
    fun position => (right.provides position).trans (left.provides position),
    fun position => (right.depends position).trans (left.depends position)⟩

theorem SameEdges.successors (same : before.SameEdges after) (position : Nat) :
    after.successors position = before.successors position :=
  congrArg _ (same.provides position)

theorem SameEdges.predecessors (same : before.SameEdges after) (position : Nat) :
    after.predecessors position = before.predecessors position :=
  congrArg _ (same.depends position)

theorem sameEdges_modifyNode (graph : DependencyGraph) (position : Nat) {change : Node → Node}
    (provides : ∀ node, (change node).provides = node.provides)
    (depends : ∀ node, (change node).depends = node.depends) :
    graph.SameEdges (graph.modifyNode position change) := by
  refine ⟨size_modifyNode graph position change, fun other => ?_, fun other => ?_⟩
  · rw [node_modifyNode]
    split
    · exact provides _
    · rfl
  · rw [node_modifyNode]
    split
    · exact depends _
    · rfl

theorem node_of_size_le (outside : graph.size ≤ position) : graph.node position = default := by
  unfold node
  rw [Array.getD_eq_getD_getElem?, Array.getElem?_eq_none outside]
  rfl

theorem lt_size_of_mem_successors (next : target ∈ graph.successors source) :
    source < graph.size := by
  by_contra outside
  unfold successors at next
  rw [node_of_size_le (Nat.le_of_not_lt outside)] at next
  cases next

theorem lt_size_of_mem_predecessors (previous : source ∈ graph.predecessors target) :
    target < graph.size := by
  by_contra outside
  unfold predecessors at previous
  rw [node_of_size_le (Nat.le_of_not_lt outside)] at previous
  cases previous

theorem hasEdge_iff : graph.hasEdge source target = true ↔ target ∈ graph.successors source := by
  simp [hasEdge, successors]

theorem canLink_iff :
    graph.canLink source target = true ↔ source ≠ target ∧ target ∉ graph.successors source := by
  rw [← hasEdge_iff]
  simp [canLink]

@[simp] theorem size_link (graph : DependencyGraph) (source target : Nat) (kind : EdgeKind) :
    (graph.link source target kind).size = graph.size :=
  (keeps_link graph source target kind).size

theorem guards_link (graph : DependencyGraph) (source target : Nat) (kind : EdgeKind) :
    (graph.link source target kind).guards = graph.guards := by
  unfold link
  split <;> rfl

theorem earlyExit_link (graph : DependencyGraph) (source target : Nat) (kind : EdgeKind) :
    (graph.link source target kind).earlyExit = graph.earlyExit := by
  unfold link
  split <;> rfl

theorem node_unlink : (graph.unlink source target).node position =
      { graph.node position with
        provides := if source = position then
          (graph.node position).provides.filter fun edge => edge.node != target
          else (graph.node position).provides
        depends := if target = position then
          (graph.node position).depends.filter fun edge => edge.node != source
          else (graph.node position).depends } := by
  unfold unlink
  rw [node_modifyNode, size_modifyNode, node_modifyNode]
  by_cases inside : position < graph.size
  · by_cases near : source = position <;> by_cases far : target = position <;>
      simp [near, far, inside]
  · rw [node_of_size_le (Nat.le_of_not_lt inside), if_neg fun both => inside both.2,
      if_neg fun both => inside both.2]
    split <;> split <;> rfl

@[simp] theorem size_unlink (graph : DependencyGraph) (source target : Nat) :
    (graph.unlink source target).size = graph.size := by
  unfold unlink
  rw [size_modifyNode, size_modifyNode]

theorem successors_link (graph : DependencyGraph) (source target position : Nat) (kind : EdgeKind) :
    (graph.link source target kind).successors position = graph.successors position ++
        if graph.canLink source target = true ∧ source = position ∧ position < graph.size then
          [target]
        else [] := by
  unfold successors
  rw [node_link]
  dsimp only
  split <;> simp

theorem depends_link (graph : DependencyGraph) (source target position : Nat) (kind : EdgeKind) :
    ((graph.link source target kind).node position).depends = (graph.node position).depends ++
        if graph.canLink source target = true ∧ target = position ∧ position < graph.size then
          [⟨source, kind⟩]
        else [] := by
  rw [node_link]

theorem predecessors_link (graph : DependencyGraph) (source target position : Nat)
    (kind : EdgeKind) :
    (graph.link source target kind).predecessors position = graph.predecessors position ++
        if graph.canLink source target = true ∧ target = position ∧ position < graph.size then
          [source]
        else [] := by
  unfold predecessors
  rw [depends_link]
  split <;> simp

theorem successors_unlink (graph : DependencyGraph) (source target position : Nat) :
    (graph.unlink source target).successors position =
      if source = position then (graph.successors position).filter (· != target)
      else graph.successors position := by
  unfold successors
  rw [node_unlink]
  by_cases near : source = position <;> simp [near, filter_map, Function.comp_def]

theorem predecessors_unlink (graph : DependencyGraph) (source target position : Nat) :
    (graph.unlink source target).predecessors position =
      if target = position then (graph.predecessors position).filter (· != source)
      else graph.predecessors position := by
  unfold predecessors
  rw [node_unlink]
  by_cases far : target = position <;> simp [far, filter_map, Function.comp_def]

theorem edgeKind?_link (near : source < graph.size) {first second : Nat} :
    (graph.link source target kind).edgeKind? first second =
      if graph.canLink source target = true ∧ first = source ∧ second = target then some kind
      else graph.edgeKind? first second := by
  unfold edgeKind?
  rw [node_link]
  dsimp only
  by_cases here : graph.canLink source target = true ∧ first = source
  · obtain ⟨able, rfl⟩ := here
    rw [if_pos ⟨able, rfl, near⟩, find?_append]
    by_cases isTarget : second = target
    · subst isTarget
      -- There was no edge between the two before.
      have none : (graph.node first).provides.find? (fun edge => edge.node == second) = none := by
        rw [find?_eq_none]
        intro edge member isSecond
        have next : second ∈ graph.successors first :=
          mem_map.mpr ⟨edge, member, eq_of_beq isSecond⟩
        exact (canLink_iff.mp able).2 next
      simp [none, able]
    · simp [isTarget, Ne.symm isTarget]
  · rw [if_neg fun both => here ⟨both.1, both.2.1.symm⟩, append_nil,
      if_neg fun both => here ⟨both.1, both.2.1⟩]

theorem edgeKind?_unlink {first second : Nat} (apart : first ≠ source ∨ second ≠ target) :
    (graph.unlink source target).edgeKind? first second = graph.edgeKind? first second := by
  unfold edgeKind?
  rw [node_unlink]
  by_cases isSource : source = first
  · subst isSource
    have isOther : second ≠ target := apart.resolve_left fun different => different rfl
    rw [if_pos rfl, find?_filter]
    congr 2
    funext edge
    by_cases isSecond : edge.node = second <;> simp [isSecond, isOther]
  · rw [if_neg isSource]

/-! ## Mirrored graphs -/

/-- Every edge is kept at both of its ends with one reason, and leads to another node. -/
structure IsMirrored (graph : DependencyGraph) : Prop where
  count_eq : ∀ source target,
    (graph.successors source).count target = (graph.predecessors target).count source
  kind_eq : ∀ source target kind, ⟨source, kind⟩ ∈ (graph.node target).depends →
    graph.edgeKind? source target = some kind
  loopless : ∀ position, position ∉ graph.successors position

namespace IsMirrored

theorem mem_iff (mirrored : graph.IsMirrored) :
    target ∈ graph.successors source ↔ source ∈ graph.predecessors target := by
  rw [← count_pos_iff, ← count_pos_iff, mirrored.count_eq]

theorem source_lt (mirrored : graph.IsMirrored) (previous : source ∈ graph.predecessors target) :
    source < graph.size :=
  lt_size_of_mem_successors (mirrored.mem_iff.mpr previous)

theorem target_lt (mirrored : graph.IsMirrored) (next : target ∈ graph.successors source) :
    target < graph.size :=
  lt_size_of_mem_predecessors (mirrored.mem_iff.mp next)

theorem of_sameEdges (mirrored : before.IsMirrored) (same : before.SameEdges after) :
    after.IsMirrored := by
  refine ⟨fun source target => ?_, fun source target kind edge => ?_, fun position => ?_⟩
  · rw [same.successors, same.predecessors]
    exact mirrored.count_eq source target
  · rw [same.depends] at edge
    unfold edgeKind?
    rw [same.provides]
    exact mirrored.kind_eq source target kind edge
  · rw [same.successors]
    exact mirrored.loopless position

theorem link (mirrored : graph.IsMirrored) (kind : EdgeKind) (near : source < graph.size)
    (far : target < graph.size) : (graph.link source target kind).IsMirrored := by
  by_cases able : graph.canLink source target = true
  · refine ⟨fun first second => ?_, fun first second other edge => ?_, fun position => ?_⟩
    · rw [successors_link, predecessors_link, count_append, count_append,
        mirrored.count_eq]
      by_cases isSource : source = first <;> by_cases isTarget : target = second
      · subst isSource isTarget
        simp [able, near, far]
      · subst isSource
        simp [able, near, isTarget]
      · subst isTarget
        simp [able, far, isSource]
      · simp [isSource, isTarget]
    · rw [depends_link] at edge
      rw [edgeKind?_link near]
      rcases mem_append.mp edge with isOld | isNew
      · have previous : first ∈ graph.predecessors second := mem_map.mpr ⟨_, isOld, rfl⟩
        rw [if_neg]
        · exact mirrored.kind_eq first second other isOld
        · rintro ⟨_, rfl, rfl⟩
          exact (canLink_iff.mp able).2 (mirrored.mem_iff.mpr previous)
      · split at isNew
        next isTarget =>
          cases mem_singleton.mp isNew
          rw [if_pos ⟨able, rfl, isTarget.2.1.symm⟩]
        · cases isNew
    · rw [successors_link, mem_append]
      rintro (isOld | isNew)
      · exact mirrored.loopless position isOld
      split at isNew
      next here =>
        have isTarget := mem_singleton.mp isNew
        exact (canLink_iff.mp able).1 (here.2.1.trans isTarget)
      · cases isNew
  · rw [DependencyGraph.link, if_neg able]
    exact mirrored

theorem unlink (mirrored : graph.IsMirrored) (source target : Nat) :
    (graph.unlink source target).IsMirrored := by
  refine ⟨fun first second => ?_, fun first second kind edge => ?_, fun position => ?_⟩
  · rw [successors_unlink, predecessors_unlink]
    by_cases isSource : source = first <;> by_cases isTarget : target = second
    · subst isSource isTarget
      have gone : ∀ (neighbours : List Nat) (node : Nat),
          (neighbours.filter (· != node)).count node = 0 := by
        intro neighbours node
        rw [count_eq_zero, mem_filter]
        simp
      rw [if_pos rfl, if_pos rfl, gone, gone]
    · subst isSource
      rw [if_pos rfl, if_neg isTarget, count_filter (by simpa using Ne.symm isTarget)]
      exact mirrored.count_eq source second
    · subst isTarget
      rw [if_neg isSource, if_pos rfl, count_filter (by simpa using Ne.symm isSource)]
      exact mirrored.count_eq first target
    · rw [if_neg isSource, if_neg isTarget]
      exact mirrored.count_eq first second
  · rw [node_unlink] at edge
    dsimp only at edge
    split at edge
    · obtain ⟨isEdge, isOther⟩ := mem_filter.mp edge
      rw [edgeKind?_unlink (.inl (bne_iff_ne.mp isOther))]
      exact mirrored.kind_eq first second kind isEdge
    next isOther =>
      rw [edgeKind?_unlink (.inr (Ne.symm isOther))]
      exact mirrored.kind_eq first second kind edge
  · rw [successors_unlink]
    split
    · exact fun isLoop => mirrored.loopless position (mem_filter.mp isLoop).1
    · exact mirrored.loopless position

end IsMirrored

end DependencyGraph

end LinearTrace
