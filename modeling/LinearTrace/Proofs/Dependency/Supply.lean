import Mathlib.Data.List.Nodup
import LinearTrace.Proofs.Dependency.Anchor
import LinearTrace.Proofs.Dependency.Feed

/-!
# Graphs whose schedules are in scope

The nodes of a supplied graph get their boxes from the header or from nodes that
they wait for, and define boxes of their own.  So the operations are in scope in
every order in which nodes come after those they wait for.
-/

namespace LinearTrace

open List

variable {box : Box} {order : List Nat} {ops : List Operation}

namespace DependencyGraph

variable {graph before after : DependencyGraph} {header : List Box} {source target position : Nat}

/-- Every node gets its boxes from the header or along edges, and each defines a box of its own, if
any. -/
structure IsSupplied (header : List Box) (graph : DependencyGraph) : Prop where
  args : ∀ node < graph.size, graph.FeedsArgs header node
  failArgs : ∀ node < graph.size, graph.FeedsSnapshot header node
  tidy : ∀ node < graph.size, (graph.op node).IsTidy header
  distinct : ∀ first second box, (graph.op first).result = some box →
    (graph.op second).result = some box → first = second
  fresh : ∀ node box, (graph.op node).result = some box → box ∉ header

namespace IsSupplied

/-- Other edges supply the same operations too, where those that carry something are kept. -/
theorem mono (supplied : before.IsSupplied header) (size : after.size = before.size)
    (sameOp : ∀ node, after.op node = before.op node)
    (edges : ∀ target edge, edge ∈ (before.node target).depends →
      (before.op edge.node).result ≠ none → edge ∈ (after.node target).depends) :
    after.IsSupplied header where
  args node inside := (supplied.args node (size ▸ inside)).mono sameOp
    fun source => edges node ⟨source, .data⟩
  failArgs node inside := by
    refine (supplied.failArgs node (size ▸ inside)).mono sameOp fun source previous defines => ?_
    obtain ⟨edge, isEdge, rfl⟩ := List.mem_map.mp previous
    exact List.mem_map_of_mem (edges node edge isEdge defines)
  tidy node inside := sameOp node ▸ supplied.tidy node (size ▸ inside)
  distinct first second box := by
    rw [sameOp, sameOp]
    exact supplied.distinct first second box
  fresh node box := by
    rw [sameOp]
    exact supplied.fresh node box

theorem link (supplied : graph.IsSupplied header) (source target : Nat) (kind : EdgeKind) :
    (graph.link source target kind).IsSupplied header :=
  supplied.mono (size_link _ _ _ _) (op_link _ _ _ _) fun _ _ edge _ => mem_depends_link edge

theorem unlink_of_void (supplied : graph.IsSupplied header) (void : (graph.op source).result = none)
    (target : Nat) : (graph.unlink source target).IsSupplied header := by
  refine supplied.mono (size_unlink _ _ _) (op_unlink _ _ _) fun node edge isEdge defines => ?_
  refine mem_depends_unlink.mpr ⟨isEdge, fun _ same => defines ?_⟩
  rw [same]
  exact void

theorem reroot (supplied : graph.IsSupplied header) {earlyExit : Nat}
    (void : (graph.op earlyExit).result = none) (position : Nat) :
    (graph.reroot 0 earlyExit position).IsSupplied header :=
  (supplied.unlink_of_void void position).link 0 position .pullUp

theorem of_sameEdges (supplied : before.IsSupplied header) (same : before.SameEdges after)
    (sameOp : ∀ node, after.op node = before.op node) : after.IsSupplied header :=
  supplied.mono same.size sameOp fun target _ isEdge _ => same.depends target ▸ isEdge

theorem prioritize (supplied : graph.IsSupplied header) (position : Nat) (level : Node → Int) :
    (graph.modifyNode position fun node => { node with priority := level node }).IsSupplied header :=
  supplied.of_sameEdges (sameEdges_modifyNode graph position (fun _ => rfl) fun _ => rfl)
    (op_modifyNode graph position fun _ => rfl)

end IsSupplied

/-! ## Built graphs -/

theorem Lists.getElem?_op (lists : graph.Lists ops)
    (isResult : (graph.op position).result = some box) :
    ∃ op, ops[position]? = some op ∧ op.result = some box := by
  by_cases inside : position < graph.size
  · have isOp : position < ops.length := lists.size ▸ inside
    rw [lists.op position _ (getElem?_eq_getElem isOp)] at isResult
    exact ⟨_, getElem?_eq_getElem isOp, isResult⟩
  · rw [DependencyGraph.op, node_of_size_le (Nat.le_of_not_lt inside)] at isResult
    cases isResult

theorem Lists.eq_of_result (lists : graph.Lists ops) (inScope : ScopedFrom header ops)
    (first second : Nat) (box : Box) (isFirst : (graph.op first).result = some box)
    (isSecond : (graph.op second).result = some box) : first = second := by
  have later : ∀ first second, (graph.op first).result = some box →
      (graph.op second).result = some box → ¬first < second := by
    intro first second isFirst isSecond before
    obtain ⟨maker, foundMaker, made⟩ := lists.getElem?_op isFirst
    obtain ⟨op, foundOp, isResult⟩ := lists.getElem?_op isSecond
    refine (scopedFrom_iff_getElem?.mp inScope second op foundOp).2 box isResult
      (mem_append_right _ ?_)
    have isTaken : (ops.take second)[first]? = some maker := by
      rw [getElem?_take_of_lt before]
      exact foundMaker
    exact mem_filterMap.mpr ⟨maker, mem_of_getElem? isTaken, made⟩
  exact Nat.le_antisymm (Nat.le_of_not_lt (later second first isSecond isFirst))
    (Nat.le_of_not_lt (later first second isFirst isSecond))

theorem Lists.not_mem_of_result (lists : graph.Lists ops) (inScope : ScopedFrom header ops)
    (node : Nat) (box : Box) (isResult : (graph.op node).result = some box) : box ∉ header := by
  obtain ⟨op, found, isResult⟩ := lists.getElem?_op isResult
  exact fun isInput => (scopedFrom_iff_getElem?.mp inScope node op found).2 box isResult
    (mem_append_left _ isInput)

theorem isSupplied_of_ofOperations {label : Operation} {rest : List Operation}
    (isLabel : label.opcode = .label) (inScope : Scoped (label :: rest))
    (tidy : ∀ op ∈ label :: rest, op.IsTidy label.argBoxes)
    (built : ofOperations (label :: rest) = .ok graph) : graph.IsSupplied label.argBoxes := by
  have lists := lists_of_ofOperations built
  have fromHeader := (scoped_iff_scopedFrom label rest).mp inScope
  have void := (tidy label mem_cons_self).void (by rw [isLabel]; rfl)
  have fed : ∀ node < graph.size, graph.IsFed True label.argBoxes node :=
    isFed_of_ofOperations void inScope (fun _ => tidy) built
  refine ⟨fun node inside => (fed node inside).args,
    fun node inside => (fed node inside).failArgs trivial, fun node inside => ?_,
    lists.eq_of_result fromHeader, lists.not_mem_of_result fromHeader⟩
  have isOp : node < (label :: rest).length := lists.size ▸ inside
  rw [lists.op node _ (getElem?_eq_getElem isOp)]
  exact tidy _ (getElem_mem isOp)

/-- Every box that a node reads comes from the header or from a node that it waits for. -/
theorem IsSupplied.exists_source (supplied : graph.IsSupplied header)
    (inside : position < graph.size) (isUse : .box box ∈ (graph.op position).uses) :
    box ∈ header ∨ ∃ source ∈ graph.predecessors position, (graph.op source).result = some box := by
  rcases mem_append.mp isUse with isArg | isFailArg
  · refine (supplied.args position inside box isArg).imp_right ?_
    rintro ⟨source, edge, isResult⟩
    exact ⟨source, List.mem_map_of_mem edge, isResult⟩
  · exact supplied.failArgs position inside box isFailArg

end DependencyGraph

end LinearTrace
