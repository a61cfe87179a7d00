import LinearTrace.Proofs.Dependency.Stable

/-!
# Guards in order

A guard that cannot resume at the loop header follows the last such guard and every
effect since.  So, step by step, it follows all of them: from an effect, or from such a
guard, a path over guards of this kind leads to each later one.
-/

namespace LinearTrace

open List DependencyGraph Operation

/-- A guard that resumes where it stands, and an early exit, are kept in order. -/
theorem Operation.isChained_of_stays {op : Operation} (isGuard : op.isGuard)
    (stays : op.exitsEarly = false ∨ op.opcode = .guardEarlyExit) (earlyExit : Option Nat) :
    op.isChained earlyExit := by
  rw [isChained, isGuard, Bool.true_and]
  rcases stays with stays | isEarlyExit
  · rw [stays, Bool.false_and, Bool.and_false]
    rfl
  · rw [isEarlyExit, bne_self_eq_false, Bool.and_false, Bool.and_false]
    rfl

namespace GraphBuilder

variable {builder next : GraphBuilder} {op : Operation} {position source : Nat}

theorem outlines_add (isOp : builder.graph.op position = op)
    (added : builder.add position op = .ok next) : builder.Outlines position op next := by
  rcases cases_add isOp added with ⟨isLabel, rfl⟩ | ⟨_, _, _, adds⟩
  · constructor <;> simp [define, isChained, isGuard, isLabel.1, Opcode.isGuard,
      Opcode.hasSideEffect, Opcode.traits]
  · exact adds.toOutlines

/-- A guard that is kept in order follows what defines its snapshot, the last such guard and the
effects since. -/
theorem hasEdge_add_of_isChained (isOp : builder.graph.op position = op)
    (chained : op.isChained builder.graph.earlyExit)
    (added : builder.add position op = .ok next)
    (member : source ∈ builder.definers op.failArgs ∨ source ∈ builder.lastGuard ∨
      source ∈ builder.effects)
    (apart : source ≠ position) (inside : source < builder.graph.size) :
    next.graph.hasEdge source position := by
  have notLabel : ¬(op.opcode = .label ∧ position = 0) := by
    rintro ⟨isLabel, _⟩
    have isGuard := Operation.isGuard_of_isChained chained
    rw [Operation.isGuard, isLabel] at isGuard
    cases isGuard
  obtain ⟨labels, links, _, adds⟩ := exists_adds isOp notLabel added
  have isTie : ∃ kind, ⟨source, kind⟩ ∈ builder.ties op labels links := by
    unfold ties chainTies
    rw [if_pos chained]
    rcases member with isDefiner | isLast | isEffect
    · exact ⟨.snapshot, by simp [toEdges, isDefiner]⟩
    · exact ⟨.guard, by simp [toEdges, Option.mem_def.mp isLast]⟩
    · exact ⟨.sideEffect, by simp [toEdges, isEffect]⟩
  obtain ⟨kind, isTie⟩ := isTie
  exact adds.links.hasEdge (mem_append_right _ isTie) apart inside

end GraphBuilder

/-! ## Operations one after another -/

/-- The operation at a position is a guard that is kept in order. -/
def IsChainedAt (ops : List Operation) (position : Nat) : Prop :=
  ∃ op, ops[position]? = some op ∧
    op.isChained (DependencyGraph.unlinked ops).earlyExit = true

/-- The operation at a position has an effect, or is a guard that is kept in order. -/
def IsTiedAt (ops : List Operation) (position : Nat) : Prop :=
  (∃ op, ops[position]? = some op ∧ op.opcode.hasSideEffect = true) ∨ IsChainedAt ops position

/-- A path over guards that are kept in order. -/
def ChainPath (ops : List Operation) (graph : DependencyGraph) : Nat → Nat → Prop :=
  Relation.TransGen fun source target =>
    source < target ∧ graph.hasEdge source target = true ∧ IsChainedAt ops target

theorem ChainPath.mono {ops : List Operation} {before after : DependencyGraph}
    (kept : before.Keeps after) {source target : Nat} (path : ChainPath ops before source target) :
    ChainPath ops after source target := by
  refine Relation.TransGen.mono (fun _ _ edge => ?_) _ _ path
  exact ⟨edge.1, kept.edges _ _ edge.2.1, edge.2.2⟩

/-- Among the operations before a position the guards are listed, and a path leads from each effect
and each guard that is kept in order to the later guards of that kind. -/
structure GraphBuilder.Chains (ops : List Operation) (position : Nat) (builder : GraphBuilder) :
    Prop where
  lists : builder.graph.Lists ops
  earlyExit : builder.graph.earlyExit = (DependencyGraph.unlinked ops).earlyExit
  guards : builder.graph.guards =
    (range position).filter fun node => (builder.graph.op node).isGuard
  recent : ∀ node < position, IsTiedAt ops node → node ∈ builder.effects ∨
    ∃ last ∈ builder.lastGuard, last < position ∧
      (node = last ∨ ChainPath ops builder.graph node last)
  ordered : ∀ guard < position, IsChainedAt ops guard → ∀ node < guard, IsTiedAt ops node →
    ChainPath ops builder.graph node guard

namespace GraphBuilder.Chains

variable {ops : List Operation} {op : Operation} {position : Nat} {builder next : GraphBuilder}

theorem start (ops : List Operation) : Chains ops 0 { graph := unlinked ops } :=
  ⟨lists_unlinked ops, rfl, rfl,
    fun _ before => absurd before (Nat.not_lt_zero _),
    fun _ before => absurd before (Nat.not_lt_zero _)⟩

theorem add (chains : Chains ops position builder) (found : ops[position]? = some op)
    (added : builder.add position op = .ok next) : Chains ops (position + 1) next := by
  have isOp := chains.lists.op position op found
  have kept := (add_eq_ok isOp added).1
  obtain ⟨inside, _⟩ := List.getElem?_eq_some_iff.mp found
  rw [← chains.lists.size] at inside
  obtain ⟨earlyExit, guards, lastGuard, effects⟩ := outlines_add isOp added
  rw [chains.earlyExit] at lastGuard effects
  -- A new guard that is kept in order ends a path from everything that was tied before.
  have reaches : op.isChained (unlinked ops).earlyExit = true →
      ∀ node < position, IsTiedAt ops node → ChainPath ops next.graph node position := by
    intro chained node before tied
    have edge : ∀ source < position, source ∈ builder.lastGuard ∨ source ∈ builder.effects →
        next.graph.hasEdge source position = true := fun source before member =>
      hasEdge_add_of_isChained isOp (chains.earlyExit ▸ chained) added (.inr member)
        (Nat.ne_of_lt before) (Nat.lt_trans before inside)
    rcases chains.recent node before tied with isEffect | ⟨last, isLast, earlier, path⟩
    · exact .single ⟨before, edge node before (.inr isEffect), op, found, chained⟩
    have step := edge last earlier (.inl isLast)
    rcases path with rfl | path
    · exact .single ⟨before, step, op, found, chained⟩
    · exact .tail (path.mono kept) ⟨earlier, step, op, found, chained⟩
  refine ⟨chains.lists.of_keeps kept, earlyExit.trans chains.earlyExit, ?_,
    fun node before tied => ?_, fun guard before isChained node earlier tied => ?_⟩
  · rw [guards, chains.guards, range_succ, filter_append]
    simp only [kept.ops, filter_cons, filter_nil, isOp]
  · by_cases chained : op.isChained (unlinked ops).earlyExit = true
    · rw [if_pos chained] at lastGuard
      refine .inr ⟨position, lastGuard, Nat.lt_succ_self position, ?_⟩
      rcases Nat.lt_succ_iff_lt_or_eq.mp before with earlier | same
      · exact .inr (reaches chained node earlier tied)
      · exact .inl same
    rw [if_neg chained] at lastGuard effects
    rw [lastGuard, effects, mem_append]
    rcases Nat.lt_succ_iff_lt_or_eq.mp before with earlier | rfl
    · rcases chains.recent node earlier tied with isEffect | ⟨last, isLast, isEarlier, path⟩
      · exact .inl (.inl isEffect)
      · exact .inr ⟨last, isLast, Nat.lt_succ_of_lt isEarlier,
          path.imp_right (ChainPath.mono kept)⟩
    · rcases tied with ⟨other, isOther, effect⟩ | ⟨other, isOther, isChained⟩
      · cases found.symm.trans isOther
        rw [if_pos effect]
        exact .inl (.inr mem_cons_self)
      · cases found.symm.trans isOther
        exact absurd isChained chained
  · rcases Nat.lt_succ_iff_lt_or_eq.mp before with isOld | rfl
    · exact (chains.ordered guard isOld isChained node earlier tied).mono kept
    · obtain ⟨other, isOther, chained⟩ := isChained
      cases found.symm.trans isOther
      exact reaches chained node earlier tied

end GraphBuilder.Chains

namespace DependencyGraph

variable {ops : List Operation} {graph : DependencyGraph}

section

variable (built : ofOperations ops = .ok graph)

include built

theorem chains_of_ofOperations :
    ∃ builder, GraphBuilder.Chains ops ops.length builder ∧ builder.graph.Keeps graph ∧
      graph.guards = builder.graph.guards := by
  obtain ⟨builder, added, closing⟩ := exists_closing built
  have chains := GraphBuilder.addAll_keeps GraphBuilder.Chains.add (GraphBuilder.Chains.start ops)
    drop_zero.symm (Nat.zero_le _) added
  have closed := closing
    (fun graph => builder.graph.Keeps graph ∧ graph.guards = builder.graph.guards)
    (fun target => ⟨fun kind same _ _ =>
      ⟨same.1.trans (keeps_link _ _ _ kind), (guards_link _ _ _ kind).trans same.2⟩⟩)
    ⟨.refl _, rfl⟩
  exact ⟨builder, chains, closed⟩

/-- In a finished graph a path over guards that are kept in order leads from each effect, and from
each of these guards, to every later one of them. -/
theorem chainPath_of_ofOperations {node guard : Nat} (tied : IsTiedAt ops node)
    (chained : IsChainedAt ops guard) (before : node < guard) : ChainPath ops graph node guard := by
  obtain ⟨builder, chains, kept, _⟩ := chains_of_ofOperations built
  have inside : guard < ops.length := by
    obtain ⟨op, found, _⟩ := chained
    exact (List.getElem?_eq_some_iff.mp found).1
  exact (chains.ordered guard inside chained node before tied).mono kept

theorem guards_of_ofOperations :
    graph.guards = (range graph.size).filter fun node => (graph.op node).isGuard := by
  obtain ⟨builder, chains, kept, guards⟩ := chains_of_ofOperations built
  rw [guards, chains.guards, kept.size, chains.lists.size]
  simp only [kept.ops]

theorem mem_guards_iff {guard : Nat} :
    guard ∈ graph.guards ↔ guard < graph.size ∧ (graph.op guard).isGuard := by
  rw [guards_of_ofOperations built, mem_filter, mem_range]

end

theorem pullUpRelaxedGuards_keeps {inner : Nat → Prop} (built : ofOperations ops = .ok graph)
    (holds : property graph)
    (isInner : ∀ position < graph.size, (graph.op position).opcode.isPure ∨
      (graph.op position).isGuard → inner position)
    (stable : ∀ earlyExit, graph.earlyExit = some earlyExit →
      IsMoveStable earlyExit graph.size inner property) :
    IsMoveStable.Holds property graph graph.pullUpRelaxedGuards.2 := by
  unfold pullUpRelaxedGuards
  split
  next label earlyExit isLabel isEarlyExit =>
    obtain ⟨rfl, isLabel, _⟩ := label_eq_some isLabel
    obtain ⟨inside, _⟩ := earlyExit_eq_some built isEarlyExit
    have notFirst := earlyExit_pos built isLabel isEarlyExit
    refine (stable earlyExit isEarlyExit).pullUpGuards isInner ⟨notFirst, inside⟩ ?_
      ⟨holds, rfl, fun _ => rfl⟩ ?_
    · intro effect member
      obtain ⟨isEffect, hasEffect⟩ := mem_filter.mp member
      refine ⟨Nat.pos_of_ne_zero fun isFirst => ?_, mem_range.mp isEffect⟩
      rw [isFirst] at hasEffect
      change (graph.op 0).opcode.hasSideEffect = true at hasEffect
      rw [isLabel] at hasEffect
      cases hasEffect
    · intro guard member
      exact (mem_guards_iff built).mp (mem_filter.mp member).1
  · exact ⟨holds, rfl, fun _ => rfl⟩

theorem isMirrored_pullUpRelaxedGuards (built : ofOperations ops = .ok graph) :
    graph.pullUpRelaxedGuards.2.IsMirrored :=
  (pullUpRelaxedGuards_keeps built (isMirrored_of_ofOperations built) (fun _ inside _ => inside)
    fun earlyExit _ => isMoveStable_isMirrored earlyExit graph.size).property

theorem op_pullUpRelaxedGuards (built : ofOperations ops = .ok graph) (node : Nat) :
    graph.pullUpRelaxedGuards.2.op node = graph.op node :=
  (pullUpRelaxedGuards_keeps built (isMirrored_of_ofOperations built) (fun _ inside _ => inside)
    fun earlyExit _ => isMoveStable_isMirrored earlyExit graph.size).op node

end DependencyGraph

end LinearTrace
