import LinearTrace.Proofs.Dependency.PullUp
import LinearTrace.Proofs.Lowering.Emit
import LinearTrace.Proofs.Vectorize.GuardOrder
import LinearTrace.Proofs.Vectorize.WellFormed

/-!
# Relaxed guards before effects

A guard that resumes at the loop header repeats the whole iteration, so nothing with an effect
may have run before it.  In the graph of a loop with an early exit, relaxed guards precede every
effect once they have been moved.  A schedule keeps to that order, and neither lowering nor
collapsing guards puts an effect in front of a relaxed guard.
-/

namespace LinearTrace

open List Opcode Unrolling GuardCollapse

open DependencyGraph

theorem Opcode.hasSideEffect_eq (opcode : Opcode) : opcode.hasSideEffect =
    (opcode.traits.store || opcode.traits.call && opcode != .callPure) := by
  cases opcode <;> rfl

theorem Opcode.traits_of_vectorForm? {opcode vector : Opcode}
    (isForm : opcode.vectorForm? = some vector) :
    vector.isGuard = false ∧ vector.hasSideEffect = opcode.hasSideEffect := by
  revert isForm
  cases opcode <;> intro isForm <;> cases isForm <;> exact ⟨rfl, rfl⟩

/-- Nothing with an effect stands in front of a relaxed guard. -/
def GuardsFirst (ops : List Operation) : Prop :=
  ops.Pairwise fun first second => first.opcode.hasSideEffect = true → second.isRelaxed = false

theorem Operation.isRelaxed_eq_false {op : Operation} (noGuard : op.isGuard = false) :
    op.isRelaxed = false :=
  Bool.eq_false_iff.mpr fun relaxed => by
    rw [isGuard_of_isRelaxed relaxed] at noGuard
    cases noGuard

/-! ## Emitting -/

namespace Lowering

open Scheduler Vectorizer

variable {graph : DependencyGraph} {packs : List Pack} {done : List Nat} {turn : Turn}
  {lowering before after : Lowering} {allowed : Opcode → Prop}

/-- All relaxed guards have been emitted. -/
def IsPast (graph : DependencyGraph) (done : List Nat) : Prop :=
  ∀ guard < graph.size, (graph.op guard).isRelaxed = true → guard ∈ done

/-- Once some nodes have been emitted: nothing with an effect stands in front of a relaxed guard,
and it only stands there at all once all relaxed guards have been emitted. -/
structure Orders (graph : DependencyGraph) (done : List Nat) (lowering : Lowering) : Prop where
  ordered : GuardsFirst lowering.output.toList
  settled : (∀ op ∈ lowering.output.toList, op.opcode.hasSideEffect = false) ∨ IsPast graph done

theorem IsPast.append (past : IsPast graph done) (more : List Nat) : IsPast graph (done ++ more) :=
  fun guard inside relaxed => mem_append_left _ (past guard inside relaxed)

/-- Pure operations may be appended, and other operations than guards, effects among them once all
relaxed guards have been emitted. -/
theorem Orders.append (orders : Orders graph done before) (appends : Appends allowed before after)
    (fits : ∀ opcode, allowed opcode → opcode.isPure ∨
      opcode.isGuard = false ∧ (opcode.hasSideEffect = true → IsPast graph done)) :
    Orders graph done after := by
  obtain ⟨more, isAfter, areMore⟩ := appends
  have unguarded : ∀ op ∈ more, op.isRelaxed = false := fun op member =>
    Operation.isRelaxed_eq_false
      ((fits op.opcode (areMore op member)).elim isGuard_of_isPure And.left)
  constructor
  · rw [isAfter]
    refine pairwise_append.mpr ⟨orders.ordered, ?_, fun _ _ op member _ => unguarded op member⟩
    exact pairwise_iff_forall_sublist.mpr fun sublist _ =>
      unguarded _ (sublist.subset (mem_cons_of_mem _ mem_cons_self))
  rcases orders.settled with none | past
  · by_cases effects : ∃ op ∈ more, op.opcode.hasSideEffect = true
    · obtain ⟨op, member, effect⟩ := effects
      rcases fits op.opcode (areMore op member) with isPure | ⟨_, isPast⟩
      · rw [hasSideEffect_of_isPure isPure] at effect
        cases effect
      · exact .inr (isPast effect)
    · refine .inl fun op member => ?_
      rw [isAfter] at member
      rcases mem_append.mp member with isOld | isNew
      · exact none op isOld
      · exact Bool.eq_false_iff.mpr fun effect => effects ⟨op, isNew, effect⟩
  · exact .inr past

section

variable (precedes : ∀ guard node, guard < graph.size → node < graph.size →
  (graph.op guard).isRelaxed → (graph.op node).opcode.hasSideEffect →
    guard ∈ graph.predecessors node)

include precedes

theorem isPast_of_isNext (isNext : IsNext graph packs done turn) {node : Nat}
    (member : node ∈ turn.nodes packs) (effect : (graph.op node).opcode.hasSideEffect) :
    IsPast graph done := fun guard inside relaxed =>
  isNext.ready node member guard (precedes guard node inside (isNext.inside node member) relaxed
    effect)

theorem Orders.push (orders : Orders graph done lowering) {position : Nat} {op : Operation}
    (isNext : IsNext graph packs done (.node position))
    (sameCode : op.opcode = (graph.op position).opcode)
    (sameDescriptor : op.descriptor = (graph.op position).descriptor) :
    Orders graph (done ++ [position]) { lowering with output := lowering.output.push op } := by
  have member : position ∈ (Turn.node position).nodes packs := mem_cons_self
  have appended : ({ lowering with output := lowering.output.push op } : Lowering).output.toList =
      lowering.output.toList ++ [op] := Array.toList_push
  have sameGuard : op.isRelaxed = (graph.op position).isRelaxed := by
    simp [Operation.isRelaxed, Operation.exitsEarly, Operation.isGuard, Operation.resume, sameCode,
      sameDescriptor]
  constructor
  · rw [appended]
    refine pairwise_append.mpr ⟨orders.ordered, pairwise_singleton _ _, ?_⟩
    intro first isFirst second isSecond effect
    rw [mem_singleton.mp isSecond]
    refine Bool.eq_false_iff.mpr fun relaxed => ?_
    -- The guard itself has not been emitted, so nothing with an effect has been.
    rcases orders.settled with none | past
    · rw [none first isFirst] at effect
      cases effect
    · exact isNext.fresh position member
        (past position (isNext.inside position member) (sameGuard ▸ relaxed))
  · cases effect : op.opcode.hasSideEffect with
    | true =>
      rw [sameCode] at effect
      exact .inr ((isPast_of_isNext precedes isNext member effect).append _)
    | false =>
      refine orders.settled.imp (fun none other isOther => ?_) fun past => past.append _
      rw [appended] at isOther
      rcases mem_append.mp isOther with isOld | isNew
      · exact none other isOld
      · rw [mem_singleton.mp isNew]
        exact effect

theorem Orders.ensures_emitTurn (orders : Orders graph done lowering)
    (isNext : IsNext graph packs done turn) :
    Ensures True (emitTurn graph packs turn) lowering fun _ after =>
      Orders graph (done ++ turn.nodes packs) after := by
  unfold emitTurn
  cases turn with
  | node position =>
    dsimp only
    cases isDebug : (graph.op position).opcode.isDebug with
    | true =>
      exact ⟨orders.ordered, orders.settled.imp_right fun past => past.append _⟩
    | false =>
      refine (maintains_lowerScalar (emits_scalar fun _ isPure => isPure) (graph.op position)
        lowering (.of_eq rfl)).bind fun op middle holds => ?_
      obtain ⟨appends, sameCode, _, sameDescriptor⟩ := holds
      exact (orders.append appends fun _ => .inl).push precedes isNext sameCode sameDescriptor
  | pack index =>
    dsimp only
    split
    next pack found =>
      have isNodes := Turn.nodes_pack found
      have isFirst : pack.first ∈ (Turn.pack index).nodes packs :=
        isNodes ▸ mem_cons_self
      have emits : Emits (fun opcode => opcode.isPure = true ∨
          (graph.op pack.first).opcode.vectorForm? = some opcode) lowering
          (lowerPack graph pack) :=
        emits_lowerPack (fun _ => .inl) graph pack fun _ => .inr
      refine (emits lowering (.of_eq rfl)).bind fun _ after holds => ?_
      have appended : Orders graph done after := by
        refine orders.append holds.1 fun opcode isAllowed => isAllowed.imp_right fun isForm => ?_
        obtain ⟨noGuard, sameEffect⟩ := traits_of_vectorForm? isForm
        exact ⟨noGuard, fun effect =>
          isPast_of_isNext precedes isNext isFirst (sameEffect ▸ effect)⟩
      exact ⟨appended.ordered, appended.settled.imp_right fun past => past.append _⟩
    · exact trivial

theorem Orders.ensures_emitTurns {turns : List (Turn × Nat)} (orders : Orders graph done lowering)
    (inOrder : InOrder graph packs done (turns.map Prod.fst)) :
    Ensures True (turns.forM fun entry => emitTurn graph packs entry.1) lowering fun _ after =>
      GuardsFirst after.output.toList := by
  induction turns generalizing done lowering with
  | nil => exact orders.ordered
  | cons entry rest ih =>
    exact (orders.ensures_emitTurn precedes inOrder.1).bind fun _ _ orders =>
      ih orders inOrder.2

theorem guardsFirst_of_emitSchedule (mirrored : graph.IsMirrored)
    (recorded : PackSet.IsRecorded graph packs) (empty : before.output = #[])
    (emitted : emitSchedule graph packs before = .ok () after) :
    GuardsFirst after.output.toList := by
  have none : before.output.toList = [] := by rw [empty]
  have orders : Orders graph [] before := by
    constructor
    · rw [none]
      exact List.Pairwise.nil
    · rw [none]
      exact .inl fun _ member => absurd member not_mem_nil
  have ensured : Ensures True (emitSchedule graph packs) before fun _ after =>
      GuardsFirst after.output.toList := by
    unfold emitSchedule
    rcases scheduled : graph.schedule packs [] with ⟨turns, _ | fault⟩
    · obtain ⟨inOrder, _⟩ := inOrder_of_schedule mirrored recorded scheduled
      exact (orders.ensures_emitTurns precedes inOrder).bind fun _ _ ordered => ordered
    · refine .bind (.of_ran fun _ _ _ => trivial) fun _ _ _ => ?_
      cases fault <;> exact trivial
  exact ensured.of_ok emitted

end

end Lowering

/-! ## Collapsing -/

theorem GuardCollapse.traits_adapt (indices : IndexTable) (op : Operation) :
    (adapt indices op).opcode.hasSideEffect = op.opcode.hasSideEffect ∧
      (adapt indices op).isRelaxed = op.isRelaxed := by
  rcases adapt_eq indices op with same | ⟨isPure, _, _, _, _, _, _, _, isRecoded⟩
  · rw [same]
    exact ⟨rfl, rfl⟩
  · have noGuard : op.isGuard = false := isGuard_of_isPure isPure
    rw [isRecoded, hasSideEffect_of_isPure isPure, Operation.isRelaxed_eq_false noGuard]
    exact ⟨rfl, rfl⟩

theorem GuardsFirst.collapse {ops kept : List Operation} {dropped : Nat} (first : GuardsFirst ops)
    (collapsed : collapse ops = .ok (kept, dropped)) : GuardsFirst kept := by
  obtain ⟨keep, rfl, _⟩ := exists_keep collapsed
  have indexed : GuardsFirst (ops.zipIdx.map Prod.fst) := by
    rw [zipIdx_map_fst]
    exact first
  refine pairwise_map.mpr (((pairwise_map.mp indexed).filter keep).imp fun ordered effect => ?_)
  rw [(traits_adapt _ _).1] at effect
  rw [(traits_adapt _ _).2]
  exact ordered effect

/-! ## All stages -/

/-- The operations begin with a label, and an early exit is among them. -/
structure HasExit (ops : List Operation) : Prop where
  label : ∃ label rest, ops = label :: rest ∧ label.opcode = .label
  exit : ∃ op ∈ ops, op.opcode = .guardEarlyExit

namespace HasExit

variable {ops : List Operation} {graph : DependencyGraph}

theorem of_isLoopBody (isLoop : Trace.isLoopBody ops)
    (exits : ∃ op ∈ ops, op.opcode = .guardEarlyExit) : HasExit ops := by
  refine ⟨?_, exits⟩
  unfold Trace.isLoopBody at isLoop
  split at isLoop
  next first second rest =>
    exact ⟨first, second :: rest, rfl, beq_iff_eq.mp (Bool.and_eq_true_iff.mp isLoop).1⟩
  · cases isLoop

theorem exists_earlyExit (hasExit : HasExit ops) (built : ofOperations ops = .ok graph) :
    graph.label = some 0 ∧ ∃ earlyExit, graph.earlyExit = some earlyExit := by
  have lists := lists_of_ofOperations built
  obtain ⟨⟨label, rest, rfl, isLabel⟩, op, member, isExit⟩ := hasExit
  constructor
  · refine label_of_isLabel (lists.size ▸ Nat.zero_lt_succ _) ?_
    rw [lists.op 0 label rfl]
    exact isLabel
  · rw [earlyExit_of_ofOperations built]
    refine Option.isSome_iff_exists.mp (findIdx?_isSome.trans ?_)
    exact List.any_eq_true.mpr ⟨op, member, beq_iff_eq.mpr isExit⟩

theorem relax {relaxation : Relaxation} {maxPaths : Nat} {relaxed : List Operation}
    (built : ofOperations ops = .ok graph)
    (isRelaxation : Relaxation.ofGraph? graph maxPaths = some relaxation)
    (scheduled : Vectorizer.scheduledOperations relaxation.graph = .ok relaxed) :
    HasExit relaxed := by
  obtain ⟨earlyExit, relaxed, isEarlyExit, isLabel, loosens, _⟩ := exists_loosens built isRelaxation
  obtain ⟨inside, isExit⟩ := earlyExit_eq_some built isEarlyExit
  obtain ⟨order, rfl, isSchedule⟩ := exists_order loosens.mirrored loosens.pack scheduled
  obtain ⟨rest, isOrder⟩ := loosens.exists_order_eq_cons isSchedule
    (isAnchored_of_earlyExit built isLabel isEarlyExit) (earlyExit_pos built isLabel isEarlyExit)
  constructor
  · rw [isOrder]
    exact ⟨_, _, rfl, (loosens.opcode 0).trans isLabel⟩
  · have member := isSchedule.mem_iff.mpr (loosens.size ▸ inside)
    exact ⟨_, List.mem_map_of_mem member, (loosens.opcode earlyExit).trans isExit⟩

theorem unroll (hasExit : HasExit ops) (count : Nat) (supply : BoxSupply) :
    HasExit (unroll ops count supply).1 := by
  obtain ⟨⟨label, rest, rfl, isLabel⟩, op, member, isExit⟩ := hasExit
  have isRest : op ∈ rest := by
    refine (mem_cons.mp member).resolve_left fun same => ?_
    rw [same, isLabel] at isExit
    cases isExit
  obtain ⟨body, closing, rfl⟩ :=
    (eq_nil_or_concat' rest).resolve_left (ne_nil_of_mem isRest)
  rw [unroll_eq]
  refine ⟨⟨label, _, rfl, isLabel⟩, ?_⟩
  rcases mem_append.mp isRest with inBody | isLast
  · exact ⟨op, mem_cons_of_mem _ (mem_append_left _ (mem_append_left _ inBody)), isExit⟩
  rw [mem_singleton.mp isLast] at isExit
  refine ⟨_, mem_cons_of_mem _ (mem_append_right _ mem_cons_self), ?_⟩
  unfold closingJump
  rw [if_neg (by rw [isExit]; decide)]
  exact isExit

end HasExit

/-- However a loop with an early exit is vectorized, nothing with an effect comes to stand in front
of a relaxed guard. -/
theorem Stages.Leads.guardsFirst {stages : Stages} {state after : Vectorizer}
    (leads : stages.Leads state after)
    (exits : ∃ op ∈ state.ops, op.opcode = .guardEarlyExit) : GuardsFirst after.ops := by
  have hasExit := HasExit.of_isLoopBody leads.isLoop exits
  have relaxed : HasExit stages.relaxed := by
    rcases leads.relaxes with same | ⟨graph, relaxation, built, isRelaxation, scheduled⟩
    · rw [same]
      exact hasExit
    · exact HasExit.relax built isRelaxation scheduled
  obtain ⟨isLabel, earlyExit, isExit⟩ :=
    (relaxed.unroll stages.count state.supply).exists_earlyExit leads.builds
  obtain ⟨done, pulled, all⟩ := isPulledUp_of_pullUpRelaxedGuards leads.builds isLabel isExit
    (Prod.ext leads.moves rfl)
  obtain ⟨isAssigned, recorded, _⟩ := Packing.isCombined_of_combine leads.finds leads.combines
  have sameEdges : stages.moved.SameEdges stages.packing.graph :=
    isAssigned ▸ stages.packing.packs.sameEdges_assign stages.moved
  have sameOp : ∀ node, stages.packing.graph.op node = stages.plain.op node := fun node =>
    (isAssigned ▸ stages.packing.packs.op_assign stages.moved node).trans (pulled.op node)
  have size : stages.packing.graph.size = stages.plain.size := sameEdges.size.trans pulled.size
  have emitted : GuardsFirst stages.lowering.output.toList := by
    refine Lowering.guardsFirst_of_emitSchedule (fun guard node isGuard isNode relaxed effect => ?_)
      (pulled.mirrored.of_sameEdges sameEdges) recorded leads.starts.1.output leads.emits
    rw [sameOp] at relaxed effect
    rw [size] at isGuard isNode
    have isEffect : node ∈ stages.plain.effects :=
      mem_filter.mpr ⟨mem_range.mpr isNode, effect⟩
    rw [sameEdges.predecessors]
    exact pulled.mirrored.mem_iff.mp
      (pulled.edges guard (all guard isGuard relaxed) node (.inr isEffect))
  rcases leads.ends with same | ⟨dropped, collapsed⟩
  · rw [same]
    exact emitted
  · exact emitted.collapse collapsed

/-! ## Loops with an early exit -/

/-- Relaxed guards precede the early exit and every effect, and nothing leads back to them. -/
structure DependencyGraph.PutsGuardsFirst (graph : DependencyGraph) (earlyExit : Nat) : Prop where
  mirrored : graph.IsMirrored
  acyclic : ∀ node, ¬ graph.Reaches node node
  edges : ∀ guard < graph.size, (graph.node guard).isRelaxed = true →
    ∀ node, graph.IsBarrier earlyExit node → graph.hasEdge guard node = true
  paths : ∀ guard < graph.size, (graph.node guard).isRelaxed = true →
    ∀ node, graph.IsBarrier earlyExit node → ¬ graph.Reaches node guard

theorem DependencyGraph.putsGuardsFirst_of_pullUpRelaxedGuards {ops : List Operation}
    {graph moved : DependencyGraph} {earlyExit : Nat} (built : ofOperations ops = .ok graph)
    (isLabel : graph.label = some 0) (isExit : graph.earlyExit = some earlyExit)
    (isMoved : graph.pullUpRelaxedGuards = (true, moved)) : moved.PutsGuardsFirst earlyExit := by
  obtain ⟨done, pulled, all⟩ := isPulledUp_of_pullUpRelaxedGuards built isLabel isExit isMoved
  obtain ⟨_, firstLabel, _⟩ := label_eq_some isLabel
  have isOpcode := (earlyExit_eq_some built isExit).2
  have isDone : ∀ guard < moved.size, (moved.node guard).isRelaxed = true → guard ∈ done := by
    intro guard inside relaxed
    refine all guard (pulled.size ▸ inside) ?_
    rw [← pulled.op]
    exact relaxed
  have sameEffects : moved.effects = graph.effects := by
    unfold effects
    rw [pulled.size]
    exact filter_congr fun node _ => congrArg (·.opcode.hasSideEffect) (pulled.op node)
  have barrier : ∀ {node}, moved.IsBarrier earlyExit node → graph.IsBarrier earlyExit node :=
    fun isBarrier => isBarrier.imp_right (sameEffects ▸ ·)
  exact ⟨pulled.mirrored, pulled.acyclic firstLabel isOpcode all,
    fun guard inside relaxed node isBarrier => hasEdge_iff.mpr
      (pulled.edges guard (isDone guard inside relaxed) node (barrier isBarrier)),
    fun guard inside relaxed node isBarrier =>
      pulled.not_reaches firstLabel isOpcode (isDone guard inside relaxed) (barrier isBarrier)⟩

/-- In a loop with an early exit, guards that resume at the loop header run before any effect: in
the graph of the unrolled loop, once they have been moved, and in every vectorized loop. -/
theorem Trace.relaxedGuards_first {trace : Trace} {label closing : Operation}
    {body : List Operation} (loop : IsLoop trace.ops label body closing)
    (exits : ∃ op ∈ body, op.opcode = .guardEarlyExit) :
    (∀ count graph moved,
      DependencyGraph.ofOperations (Unrolling.unroll trace.ops count trace.supply).1 = .ok graph →
      graph.pullUpRelaxedGuards = (true, moved) →
      ∃ earlyExit, graph.earlyExit = some earlyExit ∧ moved.PutsGuardsFirst earlyExit) ∧
    ∀ target config output stats, trace.vectorize target config = .ok (output, stats) →
      output.ops.Pairwise fun first second => second.isRelaxed = true →
        first.opcode.traits.store = false ∧
          (first.opcode.traits.call = true → first.opcode = .callPure) := by
  obtain ⟨op, member, isExit⟩ := exits
  have hasExit : HasExit trace.ops := by
    rw [loop.shape]
    exact ⟨⟨label, _, rfl, loop.isLabel⟩, op,
      List.mem_cons_of_mem _ (List.mem_append_left _ member), isExit⟩
  refine ⟨fun count graph moved built isMoved => ?_,
    fun target config output stats vectorized => ?_⟩
  · obtain ⟨isLabel, earlyExit, isEarlyExit⟩ :=
      (hasExit.unroll count trace.supply).exists_earlyExit built
    exact ⟨earlyExit, isEarlyExit,
      putsGuardsFirst_of_pullUpRelaxedGuards built isLabel isEarlyExit isMoved⟩
  · have first : GuardsFirst output.ops := by
      unfold vectorize at vectorized
      split at vectorized
      · rename_i ran
        cases vectorized
        obtain ⟨stages, leads⟩ := (Vectorizer.ensures_stages rfl).of_ok ran
        exact leads.guardsFirst hasExit.exit
      · cases vectorized
    refine first.imp fun {before after} ordered relaxed => ?_
    have noEffect : before.opcode.hasSideEffect = false :=
      Bool.eq_false_iff.mpr fun effect => by
        rw [ordered effect] at relaxed
        cases relaxed
    rw [Opcode.hasSideEffect_eq, Bool.or_eq_false_iff] at noEffect
    refine ⟨noEffect.1, fun isCall => ?_⟩
    rw [isCall, Bool.true_and] at noEffect
    exact of_not_not (bne_iff_ne.not.mp (Bool.eq_false_iff.mp noEffect.2))

namespace GuardedSums

theorem isLoop : IsLoop trace.ops label body jump :=
  ⟨rfl, rfl, by decide, .inl rfl, by decide⟩

theorem exits : ∃ op ∈ body, op.opcode = .guardEarlyExit :=
  ⟨leave .guardEarlyExit [], mem_cons_self, rfl⟩

theorem moves : (ofOperations (unroll trace.ops 0 trace.supply).1).map
    (fun graph => graph.pullUpRelaxedGuards.1) = .ok true := by
  cbv

end GuardedSums

open GuardedSums in
/-- A call of a pure function may stay in front of a guard that resumes at the loop header. -/
theorem not_first_of_guardedSums : IsLoop trace.ops label body jump ∧
    (∃ op ∈ body, op.opcode = .guardEarlyExit) ∧
    trace.vectorize target config = .ok (output, stats) ∧
    ¬ output.ops.Pairwise fun first second => second.isRelaxed = true →
      first.opcode.traits.store = false ∧ first.opcode.traits.call = false := by
  refine ⟨isLoop, exits, vectorizes, ?_⟩
  decide

open GuardedSums in
theorem relaxedGuards_first_of_guardedSums :
    (∃ graph moved earlyExit,
      ofOperations (Unrolling.unroll trace.ops 0 trace.supply).1 = .ok graph ∧
      graph.pullUpRelaxedGuards = (true, moved) ∧ graph.earlyExit = some earlyExit ∧
      moved.PutsGuardsFirst earlyExit) ∧
    output.ops.Pairwise fun first second => second.isRelaxed = true →
      first.opcode.traits.store = false ∧
        (first.opcode.traits.call = true → first.opcode = .callPure) := by
  obtain ⟨graphs, traces⟩ := Trace.relaxedGuards_first isLoop exits
  refine ⟨?_, traces target config output stats vectorizes⟩
  cases built : ofOperations (Unrolling.unroll trace.ops 0 trace.supply).1 with
  | error fault =>
    have movable := moves
    rw [built] at movable
    cases movable
  | ok graph =>
    have movable := moves
    rw [built] at movable
    have isMoved : graph.pullUpRelaxedGuards = (true, graph.pullUpRelaxedGuards.2) :=
      Prod.ext (Except.ok.inj movable) rfl
    obtain ⟨earlyExit, isExit, first⟩ := graphs 0 graph _ built isMoved
    exact ⟨graph, _, earlyExit, rfl, isMoved, isExit, first⟩

end LinearTrace
