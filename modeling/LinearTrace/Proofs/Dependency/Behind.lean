import LinearTrace.Proofs.Dependency.Feed

/-!
# What a node stays behind

Effects and loads follow the last guard that is kept in order, and so, over the chain
of these guards, all of them.  Every operation follows the ones that define its
operands, and a guard that is kept in order also those that define its snapshot.
-/

namespace LinearTrace

open List Option DependencyGraph

variable {guard node : Nat} {box : Box} {opcode : Opcode}

theorem Opcode.ne_label_of_hasSideEffect (effect : opcode.hasSideEffect) : opcode ≠ .label := by
  rintro rfl
  cases effect

/-- The operation has an effect or loads from memory. -/
def Operation.isHeld (op : Operation) : Bool :=
  op.opcode.hasSideEffect || op.opcode.isLoad

/-- The operation at a position has an effect or loads from memory. -/
def IsHeldAt (ops : List Operation) (position : Nat) : Prop :=
  ∃ op, ops[position]? = some op ∧ op.isHeld = true

/-- The values that an operation waits for: its operands, and the snapshot of a guard that is kept
in order. -/
def Operation.awaited (op : Operation) (earlyExit : Option Nat) : List Value :=
  op.args ++ if op.isChained earlyExit then op.failArgs else []

namespace GraphBuilder

variable {builder next : GraphBuilder} {op : Operation} {position source : Nat}

/-! ## Edges -/

/-- An operation follows what defines its operands, and a guard that is kept in order what defines
its snapshot. -/
theorem hasEdge_add_of_awaited (isOp : builder.graph.op position = op)
    (notLabel : ¬(op.opcode = .label ∧ position = 0)) (added : builder.add position op = .ok next)
    (member : source ∈ builder.definers (op.awaited builder.graph.earlyExit))
    (apart : source ≠ position) (inside : source < builder.graph.size) :
    next.graph.hasEdge source position := by
  obtain ⟨box, isValue, defined⟩ := mem_definers.mp member
  rcases mem_append.mp isValue with isArg | isFailArg
  · obtain ⟨_, _, _, adds⟩ := exists_adds isOp notLabel added
    exact adds.links.hasEdge (mem_append_left _
      (List.mem_map_of_mem (mem_definers.mpr ⟨box, isArg, defined⟩))) apart inside
  · split at isFailArg
    next chained =>
      exact hasEdge_add_of_isChained isOp chained added
        (.inl (mem_definers.mpr ⟨box, isFailArg, defined⟩)) apart inside
    · cases isFailArg

theorem hasEdge_add_of_isHeld (isOp : builder.graph.op position = op) (held : op.isHeld)
    (added : builder.add position op = .ok next) (isLast : source ∈ builder.lastGuard)
    (apart : source ≠ position) (inside : source < builder.graph.size) :
    next.graph.hasEdge source position := by
  have kinds := Bool.or_eq_true_iff.mp held
  have notLabel : ¬(op.opcode = .label ∧ position = 0) := fun isLabel =>
    kinds.elim (fun effect => Opcode.ne_label_of_hasSideEffect effect isLabel.1)
      fun isLoad => (Opcode.of_isLoad isLoad).2.2 isLabel.1
  obtain ⟨labels, links, _, adds⟩ := exists_adds isOp notLabel added
  have isTie : ∃ kind, ⟨source, kind⟩ ∈ builder.ties op labels links := by
    unfold ties guardBefore
    rcases kinds with effect | isLoad
    · exact ⟨.sideEffect, by simp [toEdges, effect, mem_def.mp isLast]⟩
    · exact ⟨.guard, by simp [toEdges, isLoad, mem_def.mp isLast]⟩
  obtain ⟨kind, isTie⟩ := isTie
  exact adds.links.hasEdge (mem_append_right _ isTie) apart inside

end GraphBuilder

/-! ## Operations one after another -/

/-- An operation behind the label defines a box. -/
def MakesAt (ops : List Operation) (position : Nat) (box : Box) : Prop :=
  position ≠ 0 ∧ ∃ op, ops[position]? = some op ∧ op.result = some box

/-- The operation at a position waits for a box. -/
def AwaitsAt (ops : List Operation) (position : Nat) (box : Box) : Prop :=
  position ≠ 0 ∧ ∃ op, ops[position]? = some op ∧
    .box box ∈ op.awaited (DependencyGraph.unlinked ops).earlyExit

/-- A node directly follows a guard that is kept in order, or one to which such guards lead from
it. -/
def Follows (ops : List Operation) (graph : DependencyGraph) (guard node : Nat) : Prop :=
  ∃ last < node, graph.hasEdge last node = true ∧
    (guard = last ∨ ChainPath ops graph guard last)

theorem Follows.mono {ops : List Operation} {before after : DependencyGraph}
    (kept : before.Keeps after) (follows : Follows ops before guard node) :
    Follows ops after guard node := by
  obtain ⟨last, earlier, edge, path⟩ := follows
  exact ⟨last, earlier, kept.edges _ _ edge, path.imp_right (ChainPath.mono kept)⟩

/-- The effects and loads before a position are behind the guards that are kept in order. -/
structure GraphBuilder.Trails (ops : List Operation) (position : Nat) (builder : GraphBuilder) :
    Prop where
  chains : Chains ops position builder
  effects : ∀ node ∈ builder.effects, IsHeldAt ops node
  held : ∀ node < position, IsHeldAt ops node → ∀ guard < node, IsChainedAt ops guard →
    Follows ops builder.graph guard node

/-- The operations before a position are also behind what they wait for. -/
structure GraphBuilder.Provides (ops : List Operation) (position : Nat) (builder : GraphBuilder) :
    Prop extends Trails ops position builder where
  known : ∀ source < position, ∀ box, MakesAt ops source box →
    builder.definitions[box]? = some source
  fed : ∀ node < position, ∀ box, AwaitsAt ops node box → ∀ source < node,
    MakesAt ops source box → builder.graph.hasEdge source node = true

namespace GraphBuilder.Trails

variable {ops : List Operation} {op : Operation} {position : Nat} {builder next : GraphBuilder}

theorem start (ops : List Operation) : Trails ops 0 { graph := unlinked ops } :=
  ⟨Chains.start ops, fun _ member => (nomatch member),
    fun _ before => absurd before (Nat.not_lt_zero _)⟩

theorem not_isHeldAt (chained : IsChainedAt ops node) : ¬ IsHeldAt ops node := by
  rintro ⟨op, found, held⟩
  obtain ⟨_, foundAgain, chained⟩ := chained
  cases found.symm.trans foundAgain
  have isGuard : op.opcode.isGuard = true := Operation.isGuard_of_isChained chained
  rcases Bool.or_eq_true_iff.mp held with effect | isLoad
  · rw [Opcode.isGuard_of_hasSideEffect effect] at isGuard
    cases isGuard
  · rw [(Opcode.of_isLoad isLoad).1] at isGuard
    cases isGuard

theorem isOp (trails : Trails ops position builder) (found : ops[position]? = some op) :
    builder.graph.op position = op :=
  trails.chains.lists.op position op found

section

variable (trails : Trails ops position builder) (found : ops[position]? = some op)
  (added : builder.add position op = .ok next)

include trails found added

theorem effects_add : ∀ node ∈ next.effects, IsHeldAt ops node := by
  intro node member
  rw [(outlines_add (trails.isOp found) added).effects] at member
  split at member
  · cases member
  rcases mem_append.mp member with isOld | isNew
  · exact trails.effects node isOld
  split at isNew
  next effect =>
    rw [mem_singleton.mp isNew]
    exact ⟨op, found, Bool.or_eq_true_iff.mpr (.inl effect)⟩
  · cases isNew

theorem held_add (isHeld : IsHeldAt ops position) (before : guard < position)
    (chained : IsChainedAt ops guard) : Follows ops next.graph guard position := by
  have isOp := trails.isOp found
  have kept := (add_eq_ok isOp added).1
  obtain ⟨inside, _⟩ := List.getElem?_eq_some_iff.mp found
  rw [← trails.chains.lists.size] at inside
  obtain ⟨_, foundAgain, held⟩ := isHeld
  cases found.symm.trans foundAgain
  rcases trails.chains.recent guard before (.inr chained) with
    isEffect | ⟨last, isLast, earlier, path⟩
  · exact absurd (trails.effects guard isEffect) (not_isHeldAt chained)
  · have edge := hasEdge_add_of_isHeld isOp held added isLast (Nat.ne_of_lt earlier)
      (Nat.lt_trans earlier inside)
    exact ⟨last, earlier, edge, path.imp_right (ChainPath.mono kept)⟩

theorem add : Trails ops (position + 1) next := by
  have kept := (add_eq_ok (trails.isOp found) added).1
  refine ⟨trails.chains.add found added, trails.effects_add found added,
    fun node before isHeld guard earlier chained => ?_⟩
  rcases Nat.lt_succ_iff_lt_or_eq.mp before with isOld | rfl
  · exact (trails.held node isOld isHeld guard earlier chained).mono kept
  · exact trails.held_add found added isHeld earlier chained

end

end GraphBuilder.Trails

namespace GraphBuilder.Provides

variable {ops : List Operation} {op : Operation} {position : Nat} {builder next : GraphBuilder}

theorem start (ops : List Operation) : Provides ops 0 { graph := unlinked ops } :=
  ⟨Trails.start ops, fun _ before => absurd before (Nat.not_lt_zero _),
    fun _ before => absurd before (Nat.not_lt_zero _)⟩

section

variable (provides : Provides ops position builder) (found : ops[position]? = some op)
  (added : builder.add position op = .ok next)

include provides found added

theorem fed_add (awaits : AwaitsAt ops position box) {source : Nat} (before : source < position)
    (makes : MakesAt ops source box) : next.graph.hasEdge source position := by
  obtain ⟨notFirst, _, foundAgain, isValue⟩ := awaits
  cases found.symm.trans foundAgain
  obtain ⟨inside, _⟩ := List.getElem?_eq_some_iff.mp found
  rw [← provides.chains.lists.size] at inside
  refine hasEdge_add_of_awaited (provides.isOp found) (fun isLabel => notFirst isLabel.2) added
    ?_ (Nat.ne_of_lt before) (Nat.lt_trans before inside)
  rw [provides.chains.earlyExit]
  exact mem_definers.mpr ⟨box, isValue, provides.known source before box makes⟩

/-- A box keeps its definition, because no other operation defines it again. -/
theorem known_add (inScope : Scoped ops) {source : Nat} (before : source < position + 1)
    (makes : MakesAt ops source box) : next.definitions[box]? = some source := by
  obtain ⟨notFirst, maker, isMaker, isResult⟩ := id makes
  obtain ⟨boxes, isInput, same⟩ := definitions_add (provides.isOp found)
    (fun isFirst => absurd isFirst (by omega)) added
  have isMade := (inScope.scopedIn isMaker).2 box isResult
  have isFirst : ∃ first, ops[0]? = some first ∧ builder.graph.op 0 = first := by
    obtain ⟨inside, _⟩ := List.getElem?_eq_some_iff.mp found
    have first := getElem?_eq_getElem (Nat.zero_lt_of_lt inside)
    exact ⟨_, first, provides.chains.lists.op 0 _ first⟩
  obtain ⟨first, isFirst, isNode⟩ := isFirst
  have notInput : box ∉ first.argBoxes := by
    intro isInput
    refine isMade (mem_append_left _ ?_)
    cases ops with
    | nil => cases isFirst
    | cons head rest =>
      cases isFirst
      exact isInput
  have notBox : box ∉ boxes := fun member => notInput (isNode ▸ isInput box member)
  rw [same, definitions_define]
  rcases Nat.lt_succ_iff_lt_or_eq.mp before with earlier | rfl
  · have notResult : box ∉ op.result.toList := by
      intro isAgain
      refine (inScope.scopedIn found).2 box (mem_toList.mp isAgain)
        (mem_append_right _ (mem_filterMap.mpr ⟨maker, ?_, isResult⟩))
      refine mem_of_getElem? (i := source) ?_
      rw [getElem?_take_of_lt earlier]
      exact isMaker
    rw [if_neg fun member => (mem_append.mp member).elim notBox notResult]
    exact provides.known source earlier box makes
  · cases found.symm.trans isMaker
    rw [if_pos (mem_append_right _ (mem_toList.mpr isResult))]

theorem add (inScope : Scoped ops) : Provides ops (position + 1) next := by
  have kept := (add_eq_ok (provides.isOp found) added).1
  refine ⟨provides.toTrails.add found added,
    fun source before box makes => provides.known_add found added inScope before makes,
    fun node before box awaits source earlier makes => ?_⟩
  rcases Nat.lt_succ_iff_lt_or_eq.mp before with isOld | rfl
  · exact kept.edges _ _ (provides.fed node isOld box awaits source earlier makes)
  · exact provides.fed_add found added awaits earlier makes

end

end GraphBuilder.Provides

namespace DependencyGraph

variable {ops : List Operation} {graph : DependencyGraph}

section

variable (built : ofOperations ops = .ok graph) (chained : IsChainedAt ops guard)
  (isHeld : IsHeldAt ops node) (before : guard < node)

include built chained isHeld before

/-- In a finished graph effects and loads follow the guards before them that are kept in order. -/
theorem follows_of_isHeldAt : Follows ops graph guard node := by
  obtain ⟨builder, added, kept⟩ := exists_addAll_of_ofOperations built
  have trails := GraphBuilder.addAll_keeps GraphBuilder.Trails.add (GraphBuilder.Trails.start ops)
    drop_zero.symm (Nat.zero_le _) added
  obtain ⟨_, found, _⟩ := id isHeld
  exact (trails.held node (List.getElem?_eq_some_iff.mp found).1 isHeld guard before chained).mono
    kept

theorem reaches_of_isHeldAt : graph.Reaches guard node := by
  obtain ⟨last, _, edge, path⟩ := follows_of_isHeldAt built chained isHeld before
  rcases path with rfl | path
  · exact .single edge
  · exact .tail (Relation.TransGen.mono (fun _ _ step => step.2.1) _ _ path) edge

end

/-- In a finished graph every node follows the ones that define what it waits for. -/
theorem hasEdge_of_awaitsAt (inScope : Scoped ops) (built : ofOperations ops = .ok graph)
    {source : Nat} (awaits : AwaitsAt ops node box) (makes : MakesAt ops source box)
    (before : source < node) : graph.hasEdge source node := by
  obtain ⟨builder, added, kept⟩ := exists_addAll_of_ofOperations built
  have provides := GraphBuilder.addAll_keeps
    (fun provides found added => GraphBuilder.Provides.add provides found added inScope)
    (GraphBuilder.Provides.start ops) drop_zero.symm (Nat.zero_le _) added
  obtain ⟨_, _, found, _⟩ := id awaits
  exact kept.edges _ _
    (provides.fed node (List.getElem?_eq_some_iff.mp found).1 box awaits source before makes)

end DependencyGraph

end LinearTrace
