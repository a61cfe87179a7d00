import Mathlib.Data.List.Nodup
import LinearTrace.Proofs.Dependency.Chain

/-!
# The ends of a loop in its graph

The label waits for nothing, nothing waits for the closing operation, and both
have the lowest priority.  Every other node waits for something.  Adding edges,
rerouting a node to the label and raising inner nodes keep all this.
-/

namespace LinearTrace

open List

variable {opcode : Opcode} {positions : List Nat}

theorem Opcode.isInner (kind : opcode.isPure ∨ opcode.isGuard) :
    opcode ≠ .label ∧ opcode ≠ .jump := by
  revert kind
  cases opcode <;> decide

theorem Opcode.isGuard_of_isPure (isPure : opcode.isPure) : opcode.isGuard = false := by
  revert isPure
  cases opcode <;> decide

theorem Opcode.hasSideEffect_of_isPure (isPure : opcode.isPure) : opcode.hasSideEffect = false := by
  revert isPure
  cases opcode <;> decide

namespace DependencyGraph

variable {graph before after : DependencyGraph} {ops : List Operation}
  {source target position : Nat} {kind : EdgeKind}

/-- The one graph differs from the other in its edges only. -/
structure Rewires (before after : DependencyGraph) : Prop where
  size : after.size = before.size
  node : ∀ position, ∃ provides depends, after.node position =
    { before.node position with provides := provides, depends := depends }

theorem Rewires.trans {first second third : DependencyGraph} (left : first.Rewires second)
    (right : second.Rewires third) : first.Rewires third := by
  refine ⟨right.size.trans left.size, fun position => ?_⟩
  obtain ⟨_, _, isSecond⟩ := left.node position
  obtain ⟨provides, depends, isThird⟩ := right.node position
  exact ⟨provides, depends, by rw [isThird, isSecond]⟩

theorem Rewires.op (rewires : before.Rewires after) (position : Nat) :
    after.op position = before.op position := by
  obtain ⟨_, _, isNode⟩ := rewires.node position
  unfold DependencyGraph.op
  rw [isNode]

theorem Rewires.priority (rewires : before.Rewires after) (position : Nat) :
    (after.node position).priority = (before.node position).priority := by
  obtain ⟨_, _, isNode⟩ := rewires.node position
  rw [isNode]

theorem Rewires.pack (rewires : before.Rewires after) (position : Nat) :
    (after.node position).pack = (before.node position).pack := by
  obtain ⟨_, _, isNode⟩ := rewires.node position
  rw [isNode]

theorem rewires_link (graph : DependencyGraph) (source target : Nat) (kind : EdgeKind) :
    graph.Rewires (graph.link source target kind) :=
  ⟨size_link graph source target kind, fun position =>
    ⟨_, _, node_link graph source target position kind⟩⟩

theorem rewires_unlink (graph : DependencyGraph) (source target : Nat) :
    graph.Rewires (graph.unlink source target) :=
  ⟨size_unlink graph source target, fun _ => ⟨_, _, node_unlink⟩⟩

theorem rewires_reroot (graph : DependencyGraph) (label earlyExit position : Nat) :
    graph.Rewires (graph.reroot label earlyExit position) :=
  (graph.rewires_unlink earlyExit position).trans (rewires_link _ label position .pullUp)

/-! ## Anchored graphs -/

/-- The first node waits for nothing and nothing waits for the last one, and both have the lowest
priority.  All other nodes wait for something. -/
structure IsAnchored (graph : DependencyGraph) : Prop where
  large : 1 < graph.size
  first : graph.predecessors 0 = []
  last : graph.successors (graph.size - 1) = []
  priority : ∀ node, 0 ≤ (graph.node node).priority
  firstPriority : (graph.node 0).priority = 0
  lastPriority : (graph.node (graph.size - 1)).priority = 0
  waits : ∀ node, 0 < node → node < graph.size → graph.predecessors node ≠ []

namespace IsAnchored

theorem rewire (anchored : before.IsAnchored) (rewires : before.Rewires after)
    (first : after.predecessors 0 = []) (last : after.successors (before.size - 1) = [])
    (waits : ∀ node, before.predecessors node ≠ [] → after.predecessors node ≠ []) :
    after.IsAnchored where
  large := rewires.size ▸ anchored.large
  first := first
  last := rewires.size ▸ last
  priority node := rewires.priority node ▸ anchored.priority node
  firstPriority := (rewires.priority 0).trans anchored.firstPriority
  lastPriority := rewires.size ▸ (rewires.priority _).trans anchored.lastPriority
  waits node later inside := waits node (anchored.waits node later (rewires.size ▸ inside))

theorem link (anchored : graph.IsAnchored) (kind : EdgeKind) (notLast : source + 1 < graph.size)
    (notFirst : 0 < target) : (graph.link source target kind).IsAnchored := by
  refine anchored.rewire (graph.rewires_link source target kind) ?_ ?_ fun node waits => ?_
  · rw [predecessors_link, anchored.first, if_neg fun linked => Nat.ne_of_gt notFirst linked.2.1]
    rfl
  · rw [successors_link, anchored.last, if_neg fun linked => by omega]
    rfl
  · rw [predecessors_link]
    exact append_ne_nil_of_left_ne_nil waits _

theorem reroot (anchored : graph.IsAnchored) (mirrored : graph.IsMirrored)
    (notFirst : 0 < position) (inside : position < graph.size) (earlyExit : Nat) :
    (graph.reroot 0 earlyExit position).IsAnchored := by
  have large := anchored.large
  refine anchored.rewire (graph.rewires_reroot 0 earlyExit position) ?_ ?_ fun node waits => ?_
  · unfold DependencyGraph.reroot
    rw [predecessors_link, predecessors_unlink, if_neg (Nat.ne_of_gt notFirst), anchored.first,
      if_neg fun linked => Nat.ne_of_gt notFirst linked.2.1]
    rfl
  · unfold DependencyGraph.reroot
    have notLast : 0 ≠ graph.size - 1 := by omega
    rw [successors_link, if_neg fun linked => notLast linked.2.1, append_nil,
      successors_unlink, anchored.last]
    split <;> rfl
  · exact mirrored.predecessors_reroot_ne_nil earlyExit notFirst inside waits

/-- An inner node may get any priority that is not negative. -/
theorem prioritize (anchored : graph.IsAnchored) {level : Node → Int}
    (notFirst : 0 < position) (notLast : position + 1 ≠ graph.size)
    (positive : ∀ node : Node, 0 ≤ node.priority → 0 ≤ level node) :
    (graph.modifyNode position fun node => { node with priority := level node }).IsAnchored := by
  have large := anchored.large
  have sameEdges : graph.SameEdges (graph.modifyNode position fun node =>
      { node with priority := level node }) :=
    sameEdges_modifyNode graph position (fun _ => rfl) fun _ => rfl
  have elsewhere : ∀ node, position ≠ node → ((graph.modifyNode position fun node =>
      { node with priority := level node }).node node).priority = (graph.node node).priority := by
    intro node apart
    rw [node_modifyNode, if_neg fun same => apart same.1]
  refine ⟨sameEdges.size ▸ large, (sameEdges.predecessors 0).trans anchored.first, ?_, ?_, ?_, ?_,
    ?_⟩
  · rw [sameEdges.size]
    exact (sameEdges.successors _).trans anchored.last
  · intro node
    rw [node_modifyNode]
    split
    · exact positive _ (anchored.priority node)
    · exact anchored.priority node
  · rw [elsewhere 0 (Nat.ne_of_gt notFirst)]
    exact anchored.firstPriority
  · rw [sameEdges.size, elsewhere _ (by omega)]
    exact anchored.lastPriority
  · intro node later inside
    rw [sameEdges.predecessors]
    exact anchored.waits node later (sameEdges.size ▸ inside)

theorem of_sameEdges (anchored : before.IsAnchored) (same : before.SameEdges after)
    (priority : ∀ node, (after.node node).priority = (before.node node).priority) :
    after.IsAnchored where
  large := same.size ▸ anchored.large
  first := (same.predecessors 0).trans anchored.first
  last := same.size ▸ (same.successors _).trans anchored.last
  priority node := priority node ▸ anchored.priority node
  firstPriority := (priority 0).trans anchored.firstPriority
  lastPriority := same.size ▸ (priority _).trans anchored.lastPriority
  waits node later inside :=
    same.predecessors node ▸ anchored.waits node later (same.size ▸ inside)

end IsAnchored

/-! ## Built graphs -/

/-- Edges lead to later nodes, at most one from a node to another, and nodes have no priorities
and belong to no pack. -/
structure IsFresh (graph : DependencyGraph) : Prop where
  forward : ∀ source, ∀ target ∈ graph.successors source, source < target
  distinct : ∀ source, (graph.successors source).Nodup
  priority : ∀ position, (graph.node position).priority = 0
  pack : ∀ position, (graph.node position).pack = none

theorem isStable_isFresh (target : Nat) : IsStable target IsFresh where
  link {graph source} kind fresh before inside := by
    have rewires := graph.rewires_link source target kind
    refine ⟨fun near far next => ?_, fun near => ?_, fun position => (rewires.priority position).trans
      (fresh.priority position), fun position => (rewires.pack position).trans
      (fresh.pack position)⟩
    · rw [successors_link] at next
      rcases mem_append.mp next with isOld | isNew
      · exact fresh.forward near far isOld
      split at isNew
      next linked =>
        rw [mem_singleton.mp isNew, ← linked.2.1]
        exact before
      · cases isNew
    · rw [successors_link]
      split
      next linked =>
        rw [← concat_eq_append]
        exact Nodup.concat (linked.2.1 ▸ (canLink_iff.mp linked.1).2) (fresh.distinct near)
      · rw [append_nil]
        exact fresh.distinct near
  notes fresh notes := by
    refine ⟨fun near far next => fresh.forward near far ?_, fun near => ?_, fun position => ?_,
      fun position => ?_⟩
    · rwa [notes.sameEdges.successors] at next
    · rw [notes.sameEdges.successors]
      exact fresh.distinct near
    all_goals
      obtain ⟨memory, isNode, _⟩ := notes.node position
      rw [isNode]
    · exact fresh.priority position
    · exact fresh.pack position

theorem isFresh_unlinked (ops : List Operation) : (unlinked ops).IsFresh := by
  have isolated : ∀ source, (unlinked ops).successors source = [] := fun source =>
    congrArg _ (noEdges_unlinked ops source).1
  refine ⟨fun source target next => ?_, fun source => ?_, fun position => ?_, fun position => ?_⟩
  · rw [isolated] at next
    cases next
  · rw [isolated]
    exact nodup_nil
  all_goals
    rw [node_unlinked]
    cases ops[position]? <;> rfl

theorem isFresh_of_ofOperations (built : ofOperations ops = .ok graph) : graph.IsFresh :=
  (IsStable.ofOperations isStable_isFresh (isFresh_unlinked ops) built).1

theorem lt_of_mem_predecessors (built : ofOperations ops = .ok graph)
    (previous : source ∈ graph.predecessors target) : source < target :=
  (isFresh_of_ofOperations built).forward source target
    ((isMirrored_of_ofOperations built).mem_iff.mpr previous)

theorem nodup_predecessors (built : ofOperations ops = .ok graph) (node : Nat) :
    (graph.predecessors node).Nodup := by
  refine nodup_iff_count_le_one.mpr fun source => ?_
  rw [← (isMirrored_of_ofOperations built).count_eq]
  exact nodup_iff_count_le_one.mp ((isFresh_of_ofOperations built).distinct source) node

/-- What the step at a position makes true, and no other step undoes, is true in the end. -/
theorem foldl_makes {step : DependencyGraph → Nat → DependencyGraph}
    (invariant property : DependencyGraph → Prop) (member : position ∈ positions)
    (holds : invariant graph) (keeps : ∀ graph : DependencyGraph, ∀ other ∈ positions,
      invariant graph → invariant (step graph other))
    (makes : ∀ graph, invariant graph → property (step graph position))
    (stays : ∀ graph other, property graph → property (step graph other)) :
    property (positions.foldl step graph) := by
  obtain ⟨front, rest, rfl⟩ := append_of_mem member
  rw [foldl_append, foldl_cons]
  refine foldl_keeps (makes _ (foldl_keeps holds fun graph other isFront => ?_))
    fun graph other _ => stays graph other
  exact keeps graph other (mem_append_left _ isFront)

/-- After the label has been linked to the nodes that wait for nothing, all others wait. -/
theorem predecessors_closeStart_ne_nil (mirrored : graph.IsMirrored)
    (isLabel : graph.label = some 0) (notFirst : 0 < position) (inside : position < graph.size) :
    graph.closeStart.predecessors position ≠ [] := by
  unfold closeStart
  rw [isLabel]
  refine foldl_makes (fun other => other.IsMirrored ∧ other.size = graph.size)
    (fun other => other.predecessors position ≠ [])
    (mem_range'_1.mpr ⟨notFirst, by omega⟩) ⟨mirrored, rfl⟩ ?_ ?_ ?_
  · rintro other first member ⟨mirrored, isSize⟩
    obtain ⟨above, below⟩ := mem_range'_1.mp member
    split
    · exact ⟨mirrored.link .label (by omega) (by omega), (size_link _ _ _ _).trans isSize⟩
    · exact ⟨mirrored, isSize⟩
  · rintro other ⟨mirrored, isSize⟩
    have large : 0 < other.size := by omega
    split
    · have linked : (other.link 0 position .label).hasEdge 0 position = true :=
        hasEdge_link.mpr (.inr ⟨rfl, rfl, Nat.ne_of_lt notFirst, large⟩)
      have isMirrored := mirrored.link .label large (isSize ▸ inside)
      exact ne_nil_of_mem (isMirrored.mem_iff.mp (hasEdge_iff.mp linked))
    next occupied => exact fun none => occupied (List.isEmpty_iff.mpr (map_eq_nil_iff.mp none))
  · intro other first waits
    split
    · rw [predecessors_link]
      exact append_ne_nil_of_left_ne_nil waits _
    · exact waits

/-- In a finished graph something waits for every node before a closing operation. -/
theorem successors_ne_nil_of_ofOperations (built : ofOperations ops = .ok graph)
    (isFinal : (graph.op (graph.size - 1)).opcode.isFinal)
    (notLast : position + 1 < graph.size) : graph.successors position ≠ [] := by
  obtain ⟨builder, added, closed⟩ := Fault.bind_eq_ok.mp built
  split at closed
  next small =>
    cases closed
    omega
  cases closed
  have kept := keeps_closeEnd builder.graph
  have keptStart := keeps_closeStart builder.graph.closeEnd
  rw [keptStart.size, kept.size] at notLast
  rw [keptStart.ops, keptStart.size, kept.ops, kept.size] at isFinal
  have provides : builder.graph.closeEnd.successors position ≠ [] := by
    unfold closeEnd
    rw [if_pos isFinal]
    refine foldl_makes (fun other => other.size = builder.graph.size)
      (fun other => other.successors position ≠ [])
      (mem_range.mpr (Nat.lt_sub_of_add_lt notLast)) rfl ?_ ?_ ?_
    · intro other first _ isSize
      split
      · exact (size_link _ _ _ _).trans isSize
      · exact isSize
    · intro other isSize
      split
      · have linked : (other.link position (builder.graph.size - 1) .jump).hasEdge position
            (builder.graph.size - 1) = true :=
          hasEdge_link.mpr (.inr ⟨rfl, rfl, by omega, by omega⟩)
        exact ne_nil_of_mem (hasEdge_iff.mp linked)
      next occupied => exact fun none => occupied (List.isEmpty_iff.mpr (map_eq_nil_iff.mp none))
    · intro other first provides
      split
      · rw [successors_link]
        exact append_ne_nil_of_left_ne_nil provides _
      · exact provides
  obtain ⟨target, isNext⟩ := exists_mem_of_ne_nil _ provides
  exact ne_nil_of_mem (hasEdge_iff.mp (keptStart.edges _ _ (hasEdge_iff.mpr isNext)))

theorem label_of_isLabel (large : 0 < graph.size) (isLabel : (graph.op 0).opcode = .label) :
    graph.label = some 0 := by
  unfold DependencyGraph.label
  rw [Array.getElem?_eq_getElem large]
  refine if_pos ?_
  unfold op node at isLabel
  rwa [Array.getD_eq_getD_getElem?, Array.getElem?_eq_getElem large] at isLabel

theorem isAnchored_of_ofOperations {label : Operation} {rest : List Operation}
    (isLabel : label.opcode = .label) (notEmpty : rest ≠ [])
    (built : ofOperations (label :: rest) = .ok graph) : graph.IsAnchored := by
  have mirrored := isMirrored_of_ofOperations built
  have fresh := isFresh_of_ofOperations built
  have lists := lists_of_ofOperations built
  have large : 1 < graph.size := by
    rw [lists.size, length_cons]
    exact Nat.succ_lt_succ (length_pos_iff.mpr notEmpty)
  refine ⟨large, ?_, ?_, fun node => Int.le_of_eq (fresh.priority node).symm, fresh.priority 0,
    fresh.priority _, fun node later inside => ?_⟩
  · refine eq_nil_iff_forall_not_mem.mpr fun source previous => ?_
    exact Nat.not_lt_zero _ (fresh.forward source 0 (mirrored.mem_iff.mpr previous))
  · refine eq_nil_iff_forall_not_mem.mpr fun target next => ?_
    have forward := fresh.forward _ target next
    have inside := mirrored.target_lt next
    omega
  obtain ⟨builder, added, closed⟩ := Fault.bind_eq_ok.mp built
  split at closed
  next small =>
    cases closed
    omega
  cases closed
  obtain ⟨built, builtLists⟩ :=
    IsStable.addAll isStable_isMirrored (isMirrored_unlinked _) added
  have isMirrored := IsLinkStable.closeEnd
    (fun target => (isStable_isMirrored target).toIsLinkStable) built
  have kept := keeps_closeEnd builder.graph
  rw [(keeps_closeStart _).size] at inside large
  refine predecessors_closeStart_ne_nil isMirrored
    (label_of_isLabel (Nat.zero_lt_of_lt large) ?_) later inside
  rw [kept.ops, builtLists.op 0 label rfl]
  exact isLabel

end DependencyGraph

end LinearTrace
