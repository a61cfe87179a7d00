import LinearTrace.Proofs.Dependency.Chain
import LinearTrace.Proofs.Scope.Sequence

/-!
# Where a node gets its boxes from

A box that a node reads is a box of the loop header or the result of a node that
it depends on. For operands the dependency is one of data, so that it survives
when other edges are cut; for a snapshot it may be of any kind.
-/

namespace LinearTrace

open List Option DependencyGraph

variable {box : Box} {edge : Edge} {sources : List Nat}

namespace DependencyGraph

variable {graph before after : DependencyGraph} {header : List Box} {ops : List Operation}
  {position source target : Nat} {kind : EdgeKind}

/-- Every box among the operands is a box of the header or comes along an edge of data. -/
def FeedsArgs (graph : DependencyGraph) (header : List Box) (position : Nat) : Prop :=
  ∀ box, .box box ∈ (graph.op position).args → box ∈ header ∨
    ∃ source, ⟨source, .data⟩ ∈ (graph.node position).depends ∧
      (graph.op source).result = some box

/-- Every box of the snapshot is a box of the header or comes along an edge. -/
def FeedsSnapshot (graph : DependencyGraph) (header : List Box) (position : Nat) : Prop :=
  ∀ box, .box box ∈ (graph.op position).failArgs → box ∈ header ∨
    ∃ source ∈ graph.predecessors position, (graph.op source).result = some box

theorem FeedsArgs.mono (feeds : before.FeedsArgs header position)
    (sameOp : ∀ node, after.op node = before.op node)
    (kept : ∀ source, ⟨source, .data⟩ ∈ (before.node position).depends →
      (before.op source).result ≠ none → ⟨source, .data⟩ ∈ (after.node position).depends) :
    after.FeedsArgs header position := by
  intro box isArg
  rw [sameOp] at isArg
  refine (feeds box isArg).imp_right ?_
  rintro ⟨source, edge, isResult⟩
  refine ⟨source, kept source edge ?_, (congrArg _ (sameOp source)).trans isResult⟩
  rw [isResult]
  exact some_ne_none box

theorem FeedsSnapshot.mono (feeds : before.FeedsSnapshot header position)
    (sameOp : ∀ node, after.op node = before.op node)
    (kept : ∀ source ∈ before.predecessors position, (before.op source).result ≠ none →
      source ∈ after.predecessors position) : after.FeedsSnapshot header position := by
  intro box isFailArg
  rw [sameOp] at isFailArg
  refine (feeds box isFailArg).imp_right ?_
  rintro ⟨source, edge, isResult⟩
  refine ⟨source, kept source edge ?_, (congrArg _ (sameOp source)).trans isResult⟩
  rw [isResult]
  exact some_ne_none box

theorem mem_depends_link (member : edge ∈ (graph.node position).depends) :
    edge ∈ ((graph.link source target kind).node position).depends := by
  rw [depends_link]
  exact mem_append_left _ member

theorem mem_predecessors_link {other : Nat} (member : other ∈ graph.predecessors position) :
    other ∈ (graph.link source target kind).predecessors position := by
  rw [predecessors_link]
  exact mem_append_left _ member

theorem FeedsArgs.link (feeds : graph.FeedsArgs header position) :
    (graph.link source target kind).FeedsArgs header position :=
  feeds.mono (keeps_link graph source target kind).ops fun _ edge _ => mem_depends_link edge

theorem FeedsSnapshot.link (feeds : graph.FeedsSnapshot header position) :
    (graph.link source target kind).FeedsSnapshot header position :=
  feeds.mono (keeps_link graph source target kind).ops fun _ edge _ => mem_predecessors_link edge

theorem isStable_feedsArgs (header : List Box) (position target : Nat) :
    IsStable target fun graph => graph.FeedsArgs header position where
  link _ feeds _ _ := feeds.link
  notes feeds notes := feeds.mono notes.op fun _ edge _ => by
    rw [notes.sameEdges.depends]
    exact edge

theorem isStable_feedsSnapshot (header : List Box) (position target : Nat) :
    IsStable target fun graph => graph.FeedsSnapshot header position where
  link _ feeds _ _ := feeds.link
  notes feeds notes := feeds.mono notes.op fun _ edge _ => by
    rw [notes.sameEdges.predecessors]
    exact edge

/-- Every box among the operands of a node, and under a strict reading every box of its snapshot,
comes from the header or along an edge. -/
structure IsFed (strict : Prop) (graph : DependencyGraph) (header : List Box) (position : Nat) :
    Prop where
  args : graph.FeedsArgs header position
  failArgs : strict → graph.FeedsSnapshot header position

theorem isStable_isFed (strict : Prop) (header : List Box) (condition : Nat → Prop) (target : Nat) :
    IsStable target fun graph => ∀ node, condition node → graph.IsFed strict header node where
  link _ fed _ _ node before :=
    ⟨(fed node before).args.link, fun isStrict => ((fed node before).failArgs isStrict).link⟩
  notes fed notes node before :=
    ⟨(isStable_feedsArgs header node target).notes (fed node before).args notes, fun isStrict =>
      (isStable_feedsSnapshot header node target).notes ((fed node before).failArgs isStrict) notes⟩

theorem mem_depends_linkAll (mirrored : (graph.linkAll sources target kind).IsMirrored)
    (isOpen : (graph.node target).depends = []) (member : source ∈ sources)
    (apart : source ≠ target) (inside : source < graph.size) :
    ⟨source, kind⟩ ∈ ((graph.linkAll sources target kind).node target).depends := by
  have links := Links.ofLinkAll graph sources target kind
  have linked := hasEdge_iff.mp (links.hasEdge (List.mem_map_of_mem member) apart inside)
  obtain ⟨edge, isEdge, rfl⟩ := List.mem_map.mp (mirrored.mem_iff.mp linked)
  rcases links.mem_depends isEdge with isOld | isNew
  · rw [isOpen] at isOld
    cases isOld
  · obtain ⟨_, _, rfl⟩ := List.mem_map.mp isNew
    exact isEdge

end DependencyGraph

namespace GraphBuilder

variable {builder next : GraphBuilder} {header : List Box} {ops rest : List Operation}
  {op : Operation} {position source : Nat}

/-! ## Definitions -/

/-- A later operation defines its result, and boxes of the label at most. -/
theorem definitions_add (isOp : builder.graph.op position = op)
    (void : position = 0 → op.result = none) (added : builder.add position op = .ok next) :
    ∃ boxes, (∀ box ∈ boxes, box ∈ (builder.graph.op 0).argBoxes) ∧ next.definitions =
        (builder.define (boxes ++ op.result.toList) position).definitions := by
  rcases cases_add isOp added with ⟨⟨_, rfl⟩, rfl⟩ | ⟨_, _, boxes, adds⟩
  · rw [isOp, void rfl, toList_none]
    exact ⟨op.argBoxes, fun _ => id, by rw [append_nil]⟩
  · exact ⟨boxes, adds.areBoxes, adds.definitions⟩

theorem depends_add_of_ne (isOp : builder.graph.op position = op)
    (added : builder.add position op = .ok next) {node : Nat} (apart : node ≠ position) :
    (next.graph.node node).depends = (builder.graph.node node).depends := by
  rcases cases_add isOp added with ⟨_, rfl⟩ | ⟨_, _, _, adds⟩
  · rfl
  · exact adds.links.depends_of_ne apart

/-! ## Operations one after another -/

variable {label : Operation} {strict : Prop}

/-- The operations before a position get their boxes from what they depend on, the boxes that they
define are known, and there are no other edges yet. -/
structure Feeds (strict : Prop) (label : Operation) (rest : List Operation) (position : Nat)
    (builder : GraphBuilder) : Prop where
  mirrored : builder.graph.IsMirrored
  lists : builder.graph.Lists (label :: rest)
  later : ∀ node, position ≤ node → (builder.graph.node node).depends = []
  fed : ∀ node < position, builder.graph.IsFed strict label.argBoxes node
  bounded : builder.IsBounded position
  defines : ∀ (box : Box) node, builder.definitions[box]? = some node → box ∈ label.argBoxes ∨
    ∃ op, (label :: rest)[node]? = some op ∧ op.result = some box
  known : ∀ source < position, ∀ op, (label :: rest)[source]? = some op →
    ∀ box, op.result = some box → ∃ node, builder.definitions[box]? = some node

namespace Feeds

theorem start (strict : Prop) (label : Operation) (rest : List Operation) :
    Feeds strict label rest 0 { graph := .unlinked (label :: rest) } where
  mirrored := isMirrored_unlinked _
  lists := lists_unlinked _
  later node _ := (noEdges_unlinked _ node).2
  fed _ before := absurd before (Nat.not_lt_zero _)
  bounded := isBounded_start _
  defines box node found := by
    rw [Std.HashMap.getElem?_empty] at found
    cases found
  known _ before := absurd before (Nat.not_lt_zero _)

section

variable (feeds : builder.Feeds strict label rest position)

include feeds

theorem exists_definer (isDefined : box ∈ definedBefore (label :: rest) position) :
    box ∈ label.argBoxes ∨ ∃ node < position, builder.definitions[box]? = some node ∧
      (builder.graph.op node).result = some box := by
  rcases mem_append.mp isDefined with isInput | made
  · exact .inl isInput
  obtain ⟨maker, isBefore, isResult⟩ := mem_filterMap.mp made
  obtain ⟨source, inside, rfl⟩ := mem_take_iff_getElem.mp isBefore
  have isSource := getElem?_eq_getElem (Nat.lt_of_lt_of_le inside (Nat.min_le_right _ _))
  obtain ⟨node, found⟩ := feeds.known source
    (Nat.lt_of_lt_of_le inside (Nat.min_le_left _ _)) _ isSource box isResult
  refine (feeds.defines box node found).imp_right ?_
  rintro ⟨op, isOp, isResult⟩
  exact ⟨node, feeds.bounded.definitions box node found, found,
    (congrArg _ (feeds.lists.op node op isOp)).trans isResult⟩

variable (found : (label :: rest)[position]? = some op)

include found

theorem inside : position < builder.graph.size := by
  rw [feeds.lists.size]
  exact (List.getElem?_eq_some_iff.mp found).1

/-- Edges of data are added first and keep their kind, so the operands are fed by then. -/
theorem feedsArgs_addData (inScope : op.ScopedIn (definedBefore (label :: rest) position)) :
    (builder.addData position op).graph.FeedsArgs label.argBoxes position := by
  have inside := feeds.inside found
  have linked :=
    DependencyGraph.Links.ofLinkAll builder.graph (builder.definers op.args) position .data
  have mirrored : (builder.addData position op).graph.IsMirrored := by
    refine (isStable_isMirrored position).links linked feeds.mirrored (fun edge member => ?_) inside
    obtain ⟨node, isNode, rfl⟩ := List.mem_map.mp member
    exact Nat.le_of_lt (feeds.bounded.definers op.args node isNode)
  intro box isArg
  rw [show (builder.addData position op).graph.op position = op from
    (linked.keeps.ops _).trans (feeds.lists.op position op found)] at isArg
  refine (feeds.exists_definer (inScope.1 _ (mem_append_left _ isArg) box rfl)).imp_right ?_
  rintro ⟨node, before, defined, isResult⟩
  refine ⟨node, mem_depends_linkAll mirrored (feeds.later _ (Nat.le_refl _))
    (mem_definers.mpr ⟨box, isArg, defined⟩) (Nat.ne_of_lt before) (Nat.lt_trans before inside), ?_⟩
  exact (congrArg _ (linked.keeps.ops node)).trans isResult

variable (added : builder.add position op = .ok next)

include added

theorem feedsArgs (inScope : op.ScopedIn (definedBefore (label :: rest) position)) :
    next.graph.FeedsArgs label.argBoxes position := by
  have isOp := feeds.lists.op position op found
  rcases cases_add isOp added with ⟨⟨_, rfl⟩, rfl⟩ | ⟨labels, links, _, adds⟩
  · cases found
    intro box isArg
    rw [show (builder.define op.argBoxes 0).graph.op 0 = op from isOp] at isArg
    exact .inl (Operation.mem_argBoxes.mpr isArg)
  · refine (isStable_feedsArgs label.argBoxes position position).links adds.graph
      (feeds.feedsArgs_addData found inScope) (feeds.bounded.ties adds) ?_
    exact Nat.lt_of_lt_of_eq (feeds.inside found) (DependencyGraph.Links.ofLinkAll _ _ _ _).keeps.size.symm

/-- A guard waits for what its snapshot reads, unless the loop header supplies it. -/
theorem feedsSnapshot (inScope : op.ScopedIn (definedBefore (label :: rest) position))
    (tidy : op.IsTidy label.argBoxes) (mirrored : next.graph.IsMirrored) :
    next.graph.FeedsSnapshot label.argBoxes position := by
  have isOp := feeds.lists.op position op found
  have kept := (add_eq_ok isOp added).1
  intro box isFailArg
  rw [kept.ops, isOp] at isFailArg
  by_cases isGuard : op.isGuard = true
  · by_cases stays : op.exitsEarly = false ∨ op.opcode = .guardEarlyExit
    · refine (feeds.exists_definer
        (inScope.1 _ (mem_append_right _ isFailArg) box rfl)).imp_right ?_
      rintro ⟨node, before, defined, isResult⟩
      have edge := hasEdge_add_of_isChained isOp
        (Operation.isChained_of_stays isGuard stays _) added
        (.inl (mem_definers.mpr ⟨box, isFailArg, defined⟩)) (Nat.ne_of_lt before)
        (Nat.lt_trans before (feeds.inside found))
      refine ⟨node, mirrored.mem_iff.mp (hasEdge_iff.mp edge), ?_⟩
      rw [kept.ops]
      exact isResult
    · rw [not_or, Bool.not_eq_false] at stays
      exact .inl (tidy.atHeader (.inl stays.1) box isFailArg)
  · rw [tidy.failArgs_eq_nil (Bool.eq_false_iff.mpr isGuard)] at isFailArg
    cases isFailArg

theorem add (void : label.result = none)
    (inScope : op.ScopedIn (definedBefore (label :: rest) position))
    (tidy : strict → op.IsTidy label.argBoxes) : next.Feeds strict label rest (position + 1) := by
  have isOp := feeds.lists.op position op found
  have kept := (add_eq_ok isOp added).1
  obtain ⟨mirrored, fed⟩ := feeds.bounded.property_add ((isStable_isMirrored position).and
      (isStable_isFed strict label.argBoxes (· < position) position))
    ⟨feeds.mirrored, feeds.fed⟩ isOp (feeds.inside found) added
  obtain ⟨boxes, isInput, definitions⟩ := definitions_add isOp
    (fun isFirst => by subst isFirst; cases found; exact void) added
  refine ⟨mirrored, feeds.lists.of_keeps kept, fun node after => ?_, fun node before => ?_,
    feeds.bounded.add isOp added, fun box node defined => ?_,
    fun source before other isOther box isResult => ?_⟩
  · rw [depends_add_of_ne isOp added (Nat.ne_of_gt after)]
    exact feeds.later node (Nat.le_of_succ_le after)
  · rcases Nat.lt_succ_iff_lt_or_eq.mp before with before | rfl
    · exact fed node before
    · exact ⟨feeds.feedsArgs found added inScope, fun isStrict =>
        feeds.feedsSnapshot found added inScope (tidy isStrict) mirrored⟩
  · rw [definitions] at defined
    rcases getElem?_define defined with isOld | ⟨isNew, rfl⟩
    · exact feeds.defines box node isOld
    · rcases mem_append.mp isNew with isLabelBox | isResult
      · exact .inl (feeds.lists.op 0 label rfl ▸ isInput box isLabelBox)
      · exact .inr ⟨op, found, mem_toList.mp isResult⟩
  · rw [definitions, definitions_define]
    split
    · exact ⟨position, rfl⟩
    next notNew =>
      rcases Nat.lt_succ_iff_lt_or_eq.mp before with before | rfl
      · exact feeds.known source before other isOther box isResult
      · cases found.symm.trans isOther
        exact absurd (mem_append_right _ (mem_toList.mpr isResult)) notNew

end

end Feeds

end GraphBuilder

namespace DependencyGraph

/-- In the graph of a loop every node gets its operands from the header or along edges, and the
boxes of its snapshot too where the operations are tidy. -/
theorem isFed_of_ofOperations {strict : Prop} {label : Operation} {rest : List Operation}
    {graph : DependencyGraph} (void : label.result = none) (inScope : Scoped (label :: rest))
    (tidy : strict → ∀ op ∈ label :: rest, op.IsTidy label.argBoxes)
    (built : ofOperations (label :: rest) = .ok graph) :
    ∀ node < graph.size, graph.IsFed strict label.argBoxes node := by
  obtain ⟨builder, added, closing⟩ := exists_closing built
  have feeds := GraphBuilder.addAll_keeps (fun feeds found added =>
      GraphBuilder.Feeds.add feeds found added void (inScope.scopedIn found)
        fun isStrict => tidy isStrict _ (mem_of_getElem? found))
    (GraphBuilder.Feeds.start strict label rest) drop_zero.symm (Nat.zero_le _) added
  rw [(lists_of_ofOperations built).size]
  exact closing _ (fun target => (isStable_isFed strict label.argBoxes _ target).toIsLinkStable)
    feeds.fed

end DependencyGraph

end LinearTrace
