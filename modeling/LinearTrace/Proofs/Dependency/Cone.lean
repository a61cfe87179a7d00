import LinearTrace.Proofs.Dependency.Anchor
import LinearTrace.Proofs.Dependency.Feed

/-!
# What a relaxed guard is computed from

When a loop has an early exit, index arithmetic and guards that resume at the loop header are
tied to nothing but their operands: apart from the label, whatever they wait for feeds them.
-/

namespace LinearTrace

open List Operation

namespace Operation

/-- A guard that resumes at the loop header, other than an early exit. -/
def isRelaxed (op : Operation) : Bool :=
  op.exitsEarly && op.opcode != .guardEarlyExit

/-- With an early exit in the loop, the operation is tied to nothing but its operands. -/
def isFree (op : Operation) : Bool :=
  op.opcode.isPure || op.isRelaxed

variable {op : Operation}

theorem isFree_of_isRelaxed (relaxed : op.isRelaxed) : op.isFree := by
  rw [isFree, relaxed, Bool.or_true]

theorem isGuard_of_isRelaxed (relaxed : op.isRelaxed) : op.isGuard :=
  (Bool.and_eq_true_iff.mp (Bool.and_eq_true_iff.mp relaxed).1).1

/-- Neither memory, nor an effect, nor an end of the loop is involved. -/
theorem traits_of_isFree (free : op.isFree) :
    (op.opcode.isArrayAccess || op.opcode.hasSideEffect) = false ∧ op.opcode.isFinal = false ∧
      op.opcode ≠ .label ∧ op.opcode ≠ .guardEarlyExit := by
  have kind : op.opcode.isPure = true ∨ op.opcode.isGuard = true ∧ op.opcode ≠ .guardEarlyExit := by
    refine (Bool.or_eq_true _ _ ▸ free : _ ∨ _).imp_right fun relaxed => ?_
    exact ⟨isGuard_of_isRelaxed relaxed, bne_iff_ne.mp (Bool.and_eq_true_iff.mp relaxed).2⟩
  revert kind
  cases op.opcode <;> decide

end Operation

namespace DependencyGraph

variable {graph after : DependencyGraph} {source target node : Nat} {kind : EdgeKind}

/-- Whatever a free node waits for feeds it or is the label. -/
def WaitsForData (graph : DependencyGraph) : Prop :=
  ∀ node, (graph.op node).isFree = true → ∀ edge ∈ (graph.node node).depends,
    edge.kind = .data ∨ edge.node = 0

theorem WaitsForData.of_sameEdges (waits : graph.WaitsForData) (same : graph.SameEdges after)
    (sameOp : ∀ node, after.op node = graph.op node) : after.WaitsForData := by
  intro node free edge member
  rw [sameOp] at free
  rw [same.depends] at member
  exact waits node free edge member

theorem WaitsForData.link (waits : graph.WaitsForData)
    (fits : source = 0 ∨ (graph.op target).isFree = false) :
    (graph.link source target kind).WaitsForData := by
  intro node free edge member
  rw [op_link] at free
  rw [depends_link, mem_append] at member
  rcases member with isOld | isNew
  · exact waits node free edge isOld
  split at isNew
  next linked =>
    rw [mem_singleton.mp isNew]
    refine .inr (fits.resolve_right fun bound => ?_)
    rw [linked.2.1, free] at bound
    cases bound
  · cases isNew

end DependencyGraph

namespace GraphBuilder

variable {builder next : GraphBuilder} {ops : List Operation} {op : Operation} {position node : Nat}

/-! ## Edges of one operation -/

theorem ties_of_isFree {labels links : List Nat} {boxes : List Box}
    (exits : builder.graph.earlyExit.isSome) (free : op.isFree)
    (adds : builder.Adds position op labels links boxes next) :
    builder.ties op labels links = [] := by
  obtain ⟨noAccess, _, _, noExit⟩ := traits_of_isFree free
  obtain ⟨noArray, noEffect⟩ := Bool.or_eq_false_iff.mp noAccess
  have noLabels : labels = [] := eq_nil_iff_forall_not_mem.mpr fun label member =>
    noExit (adds.areLabels label member).2
  have noLinks : links = [] := adds.unscanned (if_neg (Bool.eq_false_iff.mp noAccess))
  have noLoad : op.opcode.isLoad = false := by
    refine Bool.eq_false_iff.mpr fun isLoad => ?_
    rw [(Opcode.of_isLoad isLoad).2.1] at noArray
    cases noArray
  -- A guard is not pure, so it is relaxed.
  have unchained : op.isChained builder.graph.earlyExit = false := by
    rw [isChained, exits, Bool.true_and]
    rcases Bool.or_eq_true_iff.mp free with isPure | relaxed
    · rw [isGuard, Opcode.isGuard_of_isPure isPure, Bool.false_and]
    · rw [show (op.exitsEarly && op.opcode != .guardEarlyExit) = true from relaxed, Bool.not_true,
        Bool.and_false]
  rw [ties, chainTies, noLabels, noLinks, noLoad, noEffect, unchained]
  rfl

/-! ## Operations one after another -/

/-- Free operations before a position have edges of data only, and from the position on there are no
edges yet. -/
structure Frees (ops : List Operation) (position : Nat) (builder : GraphBuilder) : Prop where
  lists : builder.graph.Lists ops
  exits : builder.graph.earlyExit.isSome = true
  data : ∀ node < position, (builder.graph.op node).isFree = true →
    ∀ edge ∈ (builder.graph.node node).depends, edge.kind = .data
  later : ∀ node, position ≤ node → (builder.graph.node node).depends = []

theorem Frees.add (frees : Frees ops position builder) (found : ops[position]? = some op)
    (added : builder.add position op = .ok next) : Frees ops (position + 1) next := by
  have isOp := frees.lists.op position op found
  have kept := (add_eq_ok isOp added).1
  refine ⟨frees.lists.of_keeps kept, (outlines_add isOp added).earlyExit ▸ frees.exits,
    fun node before free edge member => ?_, fun node after => ?_⟩
  · rw [kept.ops] at free
    rcases Nat.lt_succ_iff_lt_or_eq.mp before with earlier | rfl
    · rw [depends_add_of_ne isOp added (Nat.ne_of_lt earlier)] at member
      exact frees.data node earlier free edge member
    rw [isOp] at free
    obtain ⟨_, _, _, adds⟩ := exists_adds isOp
      (fun isLabel => (traits_of_isFree free).2.2.1 isLabel.1) added
    have isData := adds.links.mem_depends member
    rw [frees.later node (Nat.le_refl _), ties_of_isFree frees.exits free adds,
      append_nil] at isData
    obtain ⟨_, _, rfl⟩ := List.mem_map.mp (isData.resolve_left not_mem_nil)
    rfl
  · rw [depends_add_of_ne isOp added (Nat.ne_of_gt after)]
    exact frees.later node (Nat.le_of_succ_le after)

end GraphBuilder

namespace DependencyGraph

variable {graph : DependencyGraph} {ops : List Operation}

theorem WaitsForData.closeEnd (waits : graph.WaitsForData) : graph.closeEnd.WaitsForData := by
  unfold DependencyGraph.closeEnd
  dsimp only
  split
  next isFinal =>
    -- The closing operation is not free.
    refine (foldl_keeps (motive := fun other => other.WaitsForData ∧
      (other.op (graph.size - 1)).opcode.isFinal = true) ⟨waits, isFinal⟩
      fun other position _ holds => ?_).1
    obtain ⟨waits, isFinal⟩ := holds
    split
    · rw [op_link]
      refine ⟨waits.link (.inr (Bool.eq_false_iff.mpr fun free => ?_)), isFinal⟩
      rw [(traits_of_isFree free).2.1] at isFinal
      cases isFinal
    · exact ⟨waits, isFinal⟩
  · exact waits

theorem WaitsForData.closeStart (waits : graph.WaitsForData) : graph.closeStart.WaitsForData := by
  unfold DependencyGraph.closeStart
  split
  next label isLabel =>
    obtain ⟨rfl, _⟩ := label_eq_some isLabel
    refine foldl_keeps waits fun other position _ waits => ?_
    split
    · exact waits.link (.inl rfl)
    · exact waits
  · exact waits

/-- In the graph of a loop with an early exit, index arithmetic and relaxed guards wait for their
operands and for the label only. -/
theorem waitsForData_of_ofOperations (built : ofOperations ops = .ok graph)
    (exits : graph.earlyExit.isSome) : graph.WaitsForData := by
  have isExit := earlyExit_of_ofOperations built
  obtain ⟨builder, added, closed⟩ := Fault.bind_eq_ok.mp built
  have start : GraphBuilder.Frees ops 0 { graph := unlinked ops } :=
    ⟨lists_unlinked ops, (congrArg Option.isSome isExit).symm.trans exits,
      fun _ before => absurd before (Nat.not_lt_zero _), fun node _ => (noEdges_unlinked ops node).2⟩
  have frees := GraphBuilder.addAll_keeps GraphBuilder.Frees.add start drop_zero.symm
    (Nat.zero_le _) added
  have waits : builder.graph.WaitsForData := by
    intro node free edge member
    by_cases inside : node < ops.length
    · exact .inl (frees.data node inside free edge member)
    · rw [frees.later node (Nat.le_of_not_lt inside)] at member
      cases member
  split at closed
  · cases closed
    exact waits
  · cases closed
    exact waits.closeEnd.closeStart

end DependencyGraph

end LinearTrace
