import LinearTrace.Dependency.Relax
import LinearTrace.Proofs.Dependency.Build
import LinearTrace.Proofs.Dependency.Reach

/-!
# What building a graph keeps

A graph is built by edges to later nodes and by notes on its nodes.  A property
that both keep holds of every graph that is built from operations.  Moving guards
in front of the early exit changes edges and priorities only, in three ways, and
keeps what those keep.
-/

namespace LinearTrace

open List Option DependencyGraph GraphBuilder

variable {label node guard : Nat} {sources positions : List Nat} {rest : List Operation}
  {moved : DependencyGraph} {step : DependencyGraph → Nat → DependencyGraph}

namespace DependencyGraph

variable {graph before after : DependencyGraph} {source target position : Nat} {kind : EdgeKind}

/-! ## Building -/

/-- Edges from earlier nodes to a target keep the property. -/
structure IsLinkStable (target : Nat) (property : DependencyGraph → Prop) : Prop where
  link : ∀ {graph : DependencyGraph} {source : Nat} (kind : EdgeKind), property graph →
    source < target → target < graph.size → property (graph.link source target kind)

/-- Edges from earlier nodes to a target, and notes, keep the property. -/
structure IsStable (target : Nat) (property : DependencyGraph → Prop) : Prop
    extends IsLinkStable target property where
  notes : ∀ {before after : DependencyGraph}, property before → before.Notes after → property after

theorem isStable_isMirrored (target : Nat) : IsStable target IsMirrored where
  link kind mirrored before inside := mirrored.link kind (Nat.lt_trans before inside) inside
  notes mirrored notes := mirrored.of_sameEdges notes.sameEdges

/-- The nodes of the graph are the operations of a list. -/
structure Lists (ops : List Operation) (graph : DependencyGraph) : Prop where
  size : graph.size = ops.length
  op : ∀ position op, ops[position]? = some op → graph.op position = op

theorem Lists.of_keeps {ops : List Operation} (lists : before.Lists ops)
    (kept : before.Keeps after) : after.Lists ops :=
  ⟨kept.size.trans lists.size,
    fun position op found => (kept.ops position).trans (lists.op position op found)⟩

theorem isStable_lists (ops : List Operation) (target : Nat) : IsStable target (Lists ops) where
  link kind lists _ _ := lists.of_keeps (keeps_link _ _ _ kind)
  notes lists notes := lists.of_keeps notes.keeps

section

variable {property other : DependencyGraph → Prop}

theorem IsStable.and (left : IsStable target property) (right : IsStable target other) :
    IsStable target fun graph => property graph ∧ other graph where
  link kind holds before inside :=
    ⟨left.link kind holds.1 before inside, right.link kind holds.2 before inside⟩
  notes holds notes := ⟨left.notes holds.1 notes, right.notes holds.2 notes⟩

theorem IsStable.links {edges : List Edge} (stable : IsStable target property)
    (links : before.Links target edges after) (holds : property before)
    (earlier : ∀ edge ∈ edges, edge.node ≤ target) (inside : target < before.size) :
    property after := by
  induction links with
  | refl => exact holds
  | link source kind links ih =>
    have kept := ih fun edge member => earlier edge (mem_append_left _ member)
    rcases Nat.lt_or_eq_of_le (earlier ⟨source, kind⟩ (by simp)) with isEarlier | rfl
    · exact stable.link kind kept isEarlier (links.keeps.size ▸ inside)
    · simpa [DependencyGraph.link, canLink] using kept
  | notes _ noted ih => exact stable.notes (ih earlier) noted

section

variable (stable : ∀ target, IsLinkStable target property)

include stable

theorem IsLinkStable.foldl {count : Nat}
    (holds : property graph) (isSize : graph.size = count)
    (isStep : ∀ (graph : DependencyGraph), ∀ position ∈ positions, graph.size = count →
      step graph position = graph ∨ ∃ source target kind, source < target ∧ target < count ∧
        step graph position = graph.link source target kind) :
    property (positions.foldl step graph) := by
  induction positions generalizing graph with
  | nil => exact holds
  | cons position rest ih =>
    rw [foldl_cons]
    have later : ∀ (graph : DependencyGraph), ∀ position ∈ rest, graph.size = count → _ :=
      fun graph position member => isStep graph position (mem_cons_of_mem _ member)
    rcases isStep graph position mem_cons_self isSize with
      same | ⟨source, target, kind, before, inside, same⟩
    · rw [same]
      exact ih holds isSize later
    rw [same]
    refine ih ((stable target).link kind holds before ?_) ?_ later
    · rw [isSize]
      exact inside
    · rw [size_link]
      exact isSize

theorem IsLinkStable.closeEnd
    (holds : property graph) : property graph.closeEnd := by
  unfold DependencyGraph.closeEnd
  dsimp only
  split
  · refine IsLinkStable.foldl stable holds rfl fun other position member isSize => ?_
    have before := mem_range.mp member
    split
    · exact .inr ⟨position, _, .jump, before, by omega, rfl⟩
    · exact .inl rfl
  · exact holds

theorem IsLinkStable.closeStart
    (holds : property graph) : property graph.closeStart := by
  unfold DependencyGraph.closeStart
  split
  next label isLabel =>
    obtain ⟨rfl, _, _⟩ := label_eq_some isLabel
    refine IsLinkStable.foldl stable holds rfl fun other position member isSize => ?_
    obtain ⟨above, below⟩ := mem_range'_1.mp member
    split
    · exact .inr ⟨0, position, .label, above, by omega, rfl⟩
    · exact .inl rfl
  · exact holds

end

end

end DependencyGraph

namespace GraphBuilder

variable {builder next : GraphBuilder} {op : Operation} {position : Nat}
  {property : DependencyGraph → Prop}

/-- All the nodes that are remembered come before a position. -/
structure IsBounded (position : Nat) (builder : GraphBuilder) : Prop where
  definitions : ∀ (box : Box) node, builder.definitions[box]? = some node → node < position
  lastGuard : ∀ node ∈ builder.lastGuard, node < position
  effects : ∀ node ∈ builder.effects, node < position
  accesses : ∀ access ∈ builder.accesses, access.node < position

theorem definitions_define (builder : GraphBuilder) (boxes : List Box) (position : Nat)
    (box : Box) : (builder.define boxes position).definitions[box]? =
      if box ∈ boxes then some position else builder.definitions[box]? := by
  change (boxes.foldl (fun table box => table.insert box position) builder.definitions)[box]? = _
  generalize builder.definitions = table
  induction boxes generalizing table with
  | nil => simp
  | cons first rest ih =>
    rw [foldl_cons, ih, Std.HashMap.getElem?_insert]
    by_cases isRest : box ∈ rest
    · rw [if_pos isRest, if_pos (mem_cons_of_mem _ isRest)]
    rw [if_neg isRest]
    by_cases isFirst : first = box
    · rw [if_pos (beq_iff_eq.mpr isFirst), if_pos (mem_cons.mpr (.inl isFirst.symm))]
    · rw [if_neg (fun same => isFirst (eq_of_beq same)), if_neg]
      exact fun member => (mem_cons.mp member).elim (fun same => isFirst same.symm) isRest

theorem getElem?_define {boxes : List Box} {box : Box}
    (found : (builder.define boxes position).definitions[box]? = some node) :
    builder.definitions[box]? = some node ∨ box ∈ boxes ∧ node = position := by
  rw [definitions_define] at found
  split at found
  next member =>
    cases found
    exact .inr ⟨member, rfl⟩
  · exact .inl found

theorem mem_definers {values : List Value} : node ∈ builder.definers values ↔
      ∃ box, .box box ∈ values ∧ builder.definitions[box]? = some node := by
  constructor
  · intro member
    obtain ⟨box, isBox, found⟩ := mem_filterMap.mp member
    obtain ⟨value, isValue, isBox⟩ := mem_filterMap.mp isBox
    cases value with
    | box other =>
      cases isBox
      exact ⟨box, isValue, found⟩
    | const literal => cases isBox
  · rintro ⟨box, isValue, found⟩
    exact mem_filterMap.mpr ⟨box, mem_filterMap.mpr ⟨_, isValue, rfl⟩, found⟩

namespace IsBounded

variable {labels links : List Nat} {boxes : List Box} (bounded : builder.IsBounded position)

include bounded

theorem definers (values : List Value) : ∀ node ∈ builder.definers values, node < position := by
  intro node member
  obtain ⟨box, _, found⟩ := mem_definers.mp member
  exact bounded.definitions box node found

theorem define (boxes : List Box) (box : Box)
    (found : (builder.define boxes position).definitions[box]? = some node) :
    node < position + 1 := by
  rcases getElem?_define found with isOld | ⟨_, rfl⟩
  · exact Nat.lt_succ_of_lt (bounded.definitions box node isOld)
  · exact Nat.lt_succ_self _

theorem ties (adds : builder.Adds position op labels links boxes next) :
    ∀ edge ∈ builder.ties op labels links, edge.node ≤ position := by
  have guards : ∀ follows, ∀ node ∈ builder.guardBefore follows, node < position := by
    intro follows node member
    cases follows
    · cases member
    · exact bounded.lastGuard node (mem_toList.mp member)
  have scanned : ∀ node ∈ links, node < position := by
    intro node member
    cases made : Access.ofOperation? builder.graph.indices position op with
    | none =>
      rw [adds.unscanned made] at member
      cases member
    | some access =>
      obtain ⟨earlier, isEarlier, rfl⟩ :=
        Access.exists_of_mem_conflicts (adds.scanned access made) member
      exact bounded.accesses earlier isEarlier
  have chained : ∀ edge ∈ builder.chainTies op, edge.node < position := by
    intro edge member
    unfold chainTies at member
    split at member
    · simp only [toEdges, mem_append, List.mem_map] at member
      rcases member with (⟨node, isNode, rfl⟩ | ⟨node, isNode, rfl⟩) | ⟨node, isNode, rfl⟩
      · exact bounded.definers op.failArgs node isNode
      · exact bounded.lastGuard node (mem_toList.mp isNode)
      · exact bounded.effects node isNode
    · cases member
  intro edge member
  simp only [GraphBuilder.ties, toEdges, mem_append, List.mem_map] at member
  rcases member with ((isChained | ⟨node, isNode, rfl⟩) | ⟨node, isNode, rfl⟩ | ⟨node, isNode, rfl⟩) |
    ⟨node, isNode, rfl⟩
  · exact Nat.le_of_lt (chained edge isChained)
  · exact (adds.areLabels node isNode).1 ▸ Nat.zero_le _
  · exact Nat.le_of_lt (scanned node isNode)
  · exact Nat.le_of_lt (guards _ node isNode)
  · exact Nat.le_of_lt (guards _ node isNode)

theorem add (isOp : builder.graph.op position = op) (added : builder.add position op = .ok next) :
    next.IsBounded (position + 1) := by
  have lift : ∀ {node}, node < position → node < position + 1 := Nat.lt_succ_of_lt
  rcases cases_add isOp added with ⟨_, rfl⟩ | ⟨labels, links, boxes, adds⟩
  · exact ⟨fun box node => bounded.define _ box,
      fun node isLast => lift (bounded.lastGuard node isLast),
      fun node member => lift (bounded.effects node member),
      fun access member => lift (bounded.accesses access member)⟩
  refine ⟨fun box node found => ?_, fun node isLast => ?_, fun node member => ?_,
    fun access member => ?_⟩
  · rw [adds.definitions] at found
    exact bounded.define _ box found
  · rw [adds.lastGuard] at isLast
    split at isLast
    · cases isLast
      exact Nat.lt_succ_self _
    · exact lift (bounded.lastGuard node isLast)
  · rw [adds.effects] at member
    split at member
    · cases member
    rcases mem_append.mp member with isOld | isNew
    · exact lift (bounded.effects node isOld)
    · split at isNew
      · exact Nat.lt_succ_of_le (Nat.le_of_eq (mem_singleton.mp isNew))
      · cases isNew
  · rw [adds.accesses, mem_append, mem_toList] at member
    rcases member with made | isOld
    · rw [Access.node_of_ofOperation? made]
      exact Nat.lt_succ_self _
    · exact lift (bounded.accesses access isOld)

theorem property_add (stable : DependencyGraph.IsStable position property)
    (holds : property builder.graph) (isOp : builder.graph.op position = op)
    (inside : position < builder.graph.size) (added : builder.add position op = .ok next) :
    property next.graph := by
  rcases cases_add isOp added with ⟨_, rfl⟩ | ⟨labels, links, boxes, adds⟩
  · exact holds
  refine stable.links adds.links holds (fun edge member => ?_) inside
  rcases mem_append.mp member with isData | isTie
  · obtain ⟨node, isNode, rfl⟩ := List.mem_map.mp isData
    exact Nat.le_of_lt (bounded.definers op.args node isNode)
  · exact bounded.ties adds edge isTie

end IsBounded

theorem isBounded_start (graph : DependencyGraph) : IsBounded 0 { graph := graph } := by
  refine ⟨fun box node found => ?_, fun _ member => (nomatch member),
    fun _ member => (nomatch member), fun _ member => (nomatch member)⟩
  rw [Std.HashMap.getElem?_empty] at found
  cases found

end GraphBuilder

namespace DependencyGraph

variable {ops : List Operation} {graph : DependencyGraph} {property : DependencyGraph → Prop}

theorem node_unlinked (ops : List Operation) (position : Nat) :
    (unlinked ops).node position = (ops[position]?.map fun op => { op := op }).getD default := by
  simp [node, unlinked, Array.getD_eq_getD_getElem?]

theorem lists_unlinked (ops : List Operation) : (unlinked ops).Lists ops := by
  refine ⟨by simp [size, unlinked], fun position op found => ?_⟩
  unfold DependencyGraph.op
  rw [node_unlinked, found]
  rfl

/-- A property that edges to later nodes keep holds once all operations are added, when it holds
before the first edge. -/
theorem IsStable.addAll (stable : ∀ target, IsStable target property)
    (start : property (unlinked ops)) {builder : GraphBuilder}
    (added : addAll { graph := unlinked ops } 0 ops = .ok builder) :
    property builder.graph ∧ builder.graph.Lists ops := by
  have all := addAll_keeps (motive := fun position builder =>
      (property builder.graph ∧ builder.graph.Lists ops) ∧ builder.IsBounded position)
    (fun ⟨holds, bounded⟩ found added => by
      have isOp := holds.2.op _ _ found
      have inside := holds.2.size ▸ (List.getElem?_eq_some_iff.mp found).1
      exact ⟨bounded.property_add ((stable _).and (isStable_lists ops _)) holds isOp inside added,
        bounded.add isOp added⟩)
    ⟨⟨start, lists_unlinked ops⟩, isBounded_start _⟩ drop_zero.symm
    (Nat.zero_le _) added
  exact all.1

/-- What edges to later nodes keep passes on to the finished graph once all operations are
added. -/
theorem exists_closing (built : ofOperations ops = .ok graph) :
    ∃ builder, addAll { graph := unlinked ops } 0 ops = .ok builder ∧
      ∀ property : DependencyGraph → Prop, (∀ target, IsLinkStable target property) →
        property builder.graph → property graph := by
  obtain ⟨builder, added, closed⟩ := Fault.bind_eq_ok.mp built
  refine ⟨builder, added, fun _ stable holds => ?_⟩
  split at closed
  · cases closed
    exact holds
  · cases closed
    exact IsLinkStable.closeStart stable (IsLinkStable.closeEnd stable holds)

/-- A property that edges to later nodes keep holds of every graph that is built, when it holds
before the first edge. -/
theorem IsStable.ofOperations (stable : ∀ target, IsStable target property)
    (start : property (unlinked ops)) (built : ofOperations ops = .ok graph) :
    property graph ∧ graph.Lists ops := by
  obtain ⟨builder, added, closing⟩ := exists_closing built
  exact closing _ (fun target => ((stable target).and (isStable_lists ops target)).toIsLinkStable)
    (IsStable.addAll stable start added)

theorem lists_of_ofOperations (built : ofOperations ops = .ok graph) : graph.Lists ops :=
  (IsStable.ofOperations (isStable_lists ops) (lists_unlinked ops) built).1

theorem noEdges_unlinked (ops : List Operation) (position : Nat) :
    ((unlinked ops).node position).provides = [] ∧ ((unlinked ops).node position).depends = [] := by
  rw [node_unlinked]
  cases ops[position]? with
  | none => exact ⟨rfl, rfl⟩
  | some op => exact ⟨rfl, rfl⟩

theorem isMirrored_unlinked (ops : List Operation) : (unlinked ops).IsMirrored := by
  have noEdges := noEdges_unlinked ops
  refine ⟨fun source target => ?_, fun source target kind edge => ?_, fun position => ?_⟩
  · unfold successors predecessors
    rw [(noEdges source).1, (noEdges target).2]
    rfl
  · rw [(noEdges target).2] at edge
    cases edge
  · unfold successors
    rw [(noEdges position).1]
    exact not_mem_nil

section

variable (built : ofOperations ops = .ok graph)

include built

theorem isMirrored_of_ofOperations : graph.IsMirrored :=
  (IsStable.ofOperations isStable_isMirrored (isMirrored_unlinked ops) built).1

/-- The early exit is the first operation with that code. -/
theorem earlyExit_of_ofOperations :
    graph.earlyExit = ops.findIdx? fun op => op.opcode == .guardEarlyExit := by
  have stable : ∀ target, IsStable target fun graph =>
      graph.earlyExit = (unlinked ops).earlyExit := fun _ =>
    { link := fun kind same _ _ => (earlyExit_link _ _ _ kind).trans same
      notes := fun same notes => notes.earlyExit.trans same }
  exact (IsStable.ofOperations stable rfl built).1

theorem earlyExit_eq_some {earlyExit : Nat}
    (isEarlyExit : graph.earlyExit = some earlyExit) :
    earlyExit < graph.size ∧ (graph.op earlyExit).opcode = .guardEarlyExit := by
  rw [earlyExit_of_ofOperations built] at isEarlyExit
  obtain ⟨inside, isOpcode, _⟩ := findIdx?_eq_some_iff_getElem.mp isEarlyExit
  have lists := lists_of_ofOperations built
  rw [lists.size, lists.op earlyExit _ (getElem?_eq_getElem inside)]
  exact ⟨inside, eq_of_beq isOpcode⟩

theorem earlyExit_pos
    (isLabel : (graph.op 0).opcode = .label) {earlyExit : Nat}
    (isEarlyExit : graph.earlyExit = some earlyExit) : 0 < earlyExit := by
  refine Nat.pos_of_ne_zero fun isFirst => ?_
  have isOpcode := (earlyExit_eq_some built isEarlyExit).2
  rw [isFirst, isLabel] at isOpcode
  cases isOpcode

end

/-! ## Moving guards -/

/-- Moving guards in front of the early exit keeps the property: edges from inner nodes to others
than the first, inner nodes that are fed by the label, and higher priorities of inner nodes. -/
structure IsMoveStable (earlyExit count : Nat) (inner : Nat → Prop)
    (property : DependencyGraph → Prop) : Prop where
  link : ∀ {graph : DependencyGraph} {source target : Nat}, property graph → graph.size = count →
    inner source → 0 < target → target < count → property (graph.link source target .pullUp)
  reroot : ∀ {graph : DependencyGraph} {position : Nat}, property graph → graph.size = count →
    inner position → property (graph.reroot 0 earlyExit position)
  raise : ∀ {graph : DependencyGraph} {position : Nat}, property graph → graph.size = count →
    inner position → property (graph.modifyNode position fun node =>
      { node with priority := max node.priority 10 })

theorem mem_depends_unlink {edge : Edge} :
    edge ∈ ((graph.unlink source target).node position).depends ↔
      edge ∈ (graph.node position).depends ∧ (position = target → edge.node ≠ source) := by
  rw [node_unlink]
  by_cases same : position = target
  · simp [same, mem_filter]
  · simp [same, Ne.symm same]

theorem mem_predecessors_unlink : node ∈ (graph.unlink source target).predecessors position ↔
      node ∈ graph.predecessors position ∧ (position = target → node ≠ source) := by
  constructor
  · intro previous
    obtain ⟨edge, isEdge, rfl⟩ := List.mem_map.mp previous
    obtain ⟨isEdge, apart⟩ := mem_depends_unlink.mp isEdge
    exact ⟨List.mem_map_of_mem isEdge, apart⟩
  · rintro ⟨previous, apart⟩
    obtain ⟨edge, isEdge, rfl⟩ := List.mem_map.mp previous
    exact List.mem_map_of_mem (mem_depends_unlink.mpr ⟨isEdge, apart⟩)

theorem of_mem_predecessors_link
    (previous : node ∈ (graph.link source target kind).predecessors position) :
    node ∈ graph.predecessors position ∨ node = source ∧ position = target := by
  rw [predecessors_link, mem_append] at previous
  refine previous.imp_right fun isNew => ?_
  split at isNew
  next linked => exact ⟨mem_singleton.mp isNew, linked.2.1.symm⟩
  · cases isNew

theorem mem_predecessors_reroot {earlyExit : Nat}
    (previous : source ∈ (graph.reroot 0 earlyExit position).predecessors target) :
    source = 0 ∧ target = position ∨
      source ∈ graph.predecessors target ∧ (target = position → source ≠ earlyExit) :=
  (of_mem_predecessors_link previous).symm.imp_right mem_predecessors_unlink.mp

theorem mem_successors_reroot {earlyExit : Nat} (next : target ∈ graph.successors source)
    (apart : source ≠ earlyExit) :
    target ∈ (graph.reroot 0 earlyExit position).successors source := by
  unfold reroot
  rw [successors_link, successors_unlink, if_neg (Ne.symm apart)]
  exact mem_append_left _ next

/-- A node that is fed by the label in place of the early exit. -/
theorem IsMirrored.reroot (mirrored : graph.IsMirrored) (earlyExit : Nat) {position : Nat}
    (inside : position < graph.size) : (graph.reroot 0 earlyExit position).IsMirrored := by
  refine (mirrored.unlink _ _).link .pullUp ?_ ?_ <;> rw [size_unlink]
  · exact Nat.zero_lt_of_lt inside
  · exact inside

/-- A node that waits for others still does: the rerouted one for the label. -/
theorem IsMirrored.predecessors_reroot_ne_nil (mirrored : graph.IsMirrored) (earlyExit : Nat)
    {position : Nat} (notFirst : 0 < position) (inside : position < graph.size)
    (waits : graph.predecessors node ≠ []) :
    (graph.reroot 0 earlyExit position).predecessors node ≠ [] := by
  by_cases same : position = node
  · subst same
    have near : 0 < (graph.unlink earlyExit position).size := by
      rw [size_unlink]
      exact Nat.zero_lt_of_lt inside
    have linked : (graph.reroot 0 earlyExit position).hasEdge 0 position = true :=
      hasEdge_link.mpr (.inr ⟨rfl, rfl, Nat.ne_of_lt notFirst, near⟩)
    exact ne_nil_of_mem ((mirrored.reroot earlyExit inside).mem_iff.mp (hasEdge_iff.mp linked))
  · unfold DependencyGraph.reroot
    rw [predecessors_link, predecessors_unlink, if_neg same]
    exact append_ne_nil_of_left_ne_nil waits _

theorem isMoveStable_isMirrored (earlyExit count : Nat) :
    IsMoveStable earlyExit count (· < count) IsMirrored where
  link mirrored isSize isSource _ isTarget :=
    mirrored.link .pullUp (isSize ▸ isSource) (isSize ▸ isTarget)
  reroot mirrored isSize inside := mirrored.reroot earlyExit (isSize ▸ inside)
  raise mirrored _ _ :=
    mirrored.of_sameEdges (sameEdges_modifyNode _ _ (fun _ => rfl) fun _ => rfl)

theorem foldl_keeps {motive : DependencyGraph → Prop} (holds : motive graph)
    (keeps : ∀ graph : DependencyGraph, ∀ position ∈ positions, motive graph →
      motive (step graph position)) : motive (positions.foldl step graph) := by
  induction positions generalizing graph with
  | nil => exact holds
  | cons position rest ih =>
    exact ih (keeps graph position mem_cons_self holds) fun graph other member =>
      keeps graph other (mem_cons_of_mem _ member)

theorem op_modifyNode (graph : DependencyGraph) (position : Nat) {change : Node → Node}
    (keeps : ∀ node, (change node).op = node.op) (other : Nat) :
    (graph.modifyNode position change).op other = graph.op other := by
  unfold DependencyGraph.op
  rw [node_modifyNode]
  split
  · exact keeps _
  · rfl

theorem op_link (graph : DependencyGraph) (source target : Nat) (kind : EdgeKind)
    (position : Nat) : (graph.link source target kind).op position = graph.op position :=
  (keeps_link graph source target kind).ops position

theorem op_unlink (graph : DependencyGraph) (source target position : Nat) :
    (graph.unlink source target).op position = graph.op position := by
  unfold unlink
  rw [op_modifyNode, op_modifyNode]
  · exact fun _ => rfl
  · exact fun _ => rfl

theorem op_reroot (graph : DependencyGraph) (label earlyExit position other : Nat) :
    (graph.reroot label earlyExit position).op other = graph.op other := by
  unfold reroot
  rw [op_link, op_unlink]

theorem size_reroot (graph : DependencyGraph) (label earlyExit position : Nat) :
    (graph.reroot label earlyExit position).size = graph.size := by
  unfold reroot
  rw [size_link, size_unlink]

/-- A guard that was moved is computed from pure operations.  Those that the early exit fed are fed
by the label and all of them go first; then the guard precedes the early exit and all effects. -/
theorem pullUpGuard?_eq_some {earlyExit : Nat} {effects : List Nat}
    (isMoved : graph.pullUpGuard? label earlyExit effects guard = some moved) :
    (∀ node ∈ graph.cone guard, node < graph.size ∧
      (node = guard ∨ (graph.op node).opcode.isPure)) ∧
    moved = (earlyExit :: effects).foldl (fun graph target => graph.link guard target .pullUp)
      ((((graph.cone guard).filter fun node =>
        (graph.node node).dataInputs.contains earlyExit).foldl
          (fun graph node => graph.reroot label earlyExit node) graph).raisePriority
            (graph.cone guard)) := by
  unfold pullUpGuard? at isMoved
  dsimp only at isMoved
  split at isMoved
  next pure =>
    refine ⟨fun node member => ⟨?_, ?_⟩, (some.inj isMoved).symm⟩
    · have inside := Search.lt_size_of_mem_visit member
      rwa [Array.size_replicate] at inside
    · have isPure := List.all_eq_true.mp pure node member
      rw [Bool.or_eq_true] at isPure
      exact isPure.imp_left eq_of_beq
  · cases isMoved

namespace IsMoveStable

variable {earlyExit : Nat} {inner : Nat → Prop} {start : DependencyGraph} {effects : List Nat}

/-- The graph has the property, and the nodes of the graph at the start. -/
structure Holds (property : DependencyGraph → Prop) (start graph : DependencyGraph) : Prop where
  property : property graph
  size : graph.size = start.size
  op : ∀ position, graph.op position = start.op position

section

variable (stable : IsMoveStable earlyExit start.size inner property)
  (isInner : ∀ position < start.size, (start.op position).opcode.isPure ∨
    (start.op position).isGuard → inner position)
  (exits : 0 < earlyExit ∧ earlyExit < start.size)
  (areEffects : ∀ effect ∈ effects, 0 < effect ∧ effect < start.size)

include stable isInner exits areEffects

theorem pullUpGuard? (holds : Holds property start graph)
    (isGuard : guard < start.size ∧ (start.op guard).isGuard)
    (isMoved : graph.pullUpGuard? 0 earlyExit effects guard = some moved) :
    Holds property start moved := by
  obtain ⟨cone, rfl⟩ := pullUpGuard?_eq_some isMoved
  have innerGuard : inner guard := isInner guard isGuard.1 (.inr isGuard.2)
  have visited : ∀ position ∈ graph.cone guard, inner position := by
    intro position member
    obtain ⟨inside, isGuardItself | isPure⟩ := cone position member
    · rw [isGuardItself]
      exact innerGuard
    · rw [holds.op] at isPure
      exact isInner position (holds.size ▸ inside) (.inl isPure)
  have targets : ∀ target ∈ earlyExit :: effects, 0 < target ∧ target < start.size :=
    forall_mem_cons.mpr ⟨exits, areEffects⟩
  refine foldl_keeps (motive := Holds property start) ?_ fun other target member holds =>
    ⟨stable.link holds.property holds.size innerGuard (targets target member).1
      (targets target member).2, (size_link _ _ _ _).trans holds.size,
      fun position => (op_link _ _ _ _ position).trans (holds.op position)⟩
  refine foldl_keeps (motive := Holds property start) ?_ fun other position member holds =>
    ⟨stable.raise holds.property holds.size (visited position member),
      (size_modifyNode _ _ _).trans holds.size, fun node => by
        rw [op_modifyNode]
        · exact holds.op node
        · exact fun _ => rfl⟩
  exact foldl_keeps (motive := Holds property start) holds fun other position member holds =>
    ⟨stable.reroot holds.property holds.size (visited position (mem_filter.mp member).1),
      (size_reroot _ _ _ _).trans holds.size,
      fun other => (op_reroot _ _ _ _ other).trans (holds.op other)⟩

theorem pullUpGuards {guards : List Nat} (holds : Holds property start graph)
    (areGuards : ∀ guard ∈ guards, guard < start.size ∧ (start.op guard).isGuard) :
    Holds property start (pullUpGuards 0 earlyExit effects guards graph).2 := by
  induction guards generalizing graph with
  | nil => exact holds
  | cons guard rest ih =>
    unfold pullUpGuards
    split
    next moved isMoved =>
      have next := stable.pullUpGuard? isInner exits areEffects holds
        (areGuards guard mem_cons_self) isMoved
      exact ih next fun other member => areGuards other (mem_cons_of_mem _ member)
    · exact holds

end

end IsMoveStable

end DependencyGraph

end LinearTrace
