import LinearTrace.Proofs.Dependency.Cone

/-!
# Guards in front of the early exit

Moving a relaxed guard adds edges against the order of the program.  They lead to the early
exit and to effects only, and the moved guard is ahead of these: going back from it along edges
one meets nothing but index arithmetic, other relaxed guards and the label.  So no path leads
back to a moved guard, and no cycle arises.
-/

namespace LinearTrace.DependencyGraph

open List Operation

variable {graph before after start : DependencyGraph} {ops : List Operation} {edge : Edge}
  {earlyExit guard node source target position : Nat} {done : List Nat}

variable {kind : EdgeKind} {positions targets : List Nat} {moved : DependencyGraph}

/-! ## Nodes ahead -/

/-- The label, or a free node that waits for such nodes only. -/
inductive IsAhead (graph : DependencyGraph) : Nat → Prop where
  | first : graph.IsAhead 0
  | node {node : Nat} : (graph.op node).isFree = true →
      (∀ source ∈ graph.predecessors node, graph.IsAhead source) → graph.IsAhead node

theorem IsAhead.isFree (ahead : graph.IsAhead node) : node = 0 ∨ (graph.op node).isFree := by
  cases ahead with
  | first => exact .inl rfl
  | node free _ => exact .inr free

/-- A node stays ahead as long as free nodes wait for nothing new but the label. -/
theorem IsAhead.mono (ahead : before.IsAhead node) (sameOp : ∀ node, after.op node = before.op node)
    (fewer : ∀ source target, (before.op target).isFree →
      source ∈ after.predecessors target → source = 0 ∨ source ∈ before.predecessors target) :
    after.IsAhead node := by
  induction ahead with
  | first => exact .first
  | @node target free _ ih =>
    refine .node (sameOp target ▸ free) fun source previous => ?_
    rcases fewer source target free previous with rfl | isOld
    · exact .first
    · exact ih source isOld

theorem IsAhead.of_reaches (mirrored : graph.IsMirrored) (first : graph.predecessors 0 = [])
    (path : graph.Reaches source target) (ahead : graph.IsAhead target) : graph.IsAhead source := by
  have back : ∀ {source target}, graph.hasEdge source target = true → graph.IsAhead target →
      graph.IsAhead source := by
    intro source target isEdge ahead
    have previous := mirrored.mem_iff.mp (hasEdge_iff.mp isEdge)
    cases ahead with
    | first =>
      rw [first] at previous
      cases previous
    | node _ waits => exact waits source previous
  induction path with
  | single isEdge => exact back isEdge ahead
  | tail _ isEdge ih => exact ih (back isEdge ahead)

/-! ## Single steps -/

theorem mem_depends_reroot (member : edge ∈ ((graph.reroot 0 earlyExit position).node node).depends) :
    edge.node = 0 ∧ node = position ∨
      edge ∈ (graph.node node).depends ∧ (node = position → edge.node ≠ earlyExit) := by
  unfold reroot at member
  rw [depends_link, mem_append] at member
  rcases member with isOld | isNew
  · exact .inr (mem_depends_unlink.mp isOld)
  split at isNew
  next linked =>
    rw [mem_singleton.mp isNew]
    exact .inl ⟨rfl, linked.2.1.symm⟩
  · cases isNew

theorem not_mem_predecessors_foldl_reroot (notFirst : earlyExit ≠ 0) (member : node ∈ positions) :
    earlyExit ∉ (positions.foldl (fun graph position => graph.reroot 0 earlyExit position)
      graph).predecessors node := by
  refine foldl_makes (fun _ => True) (fun graph => earlyExit ∉ graph.predecessors node) member
    trivial (fun _ _ _ => id) (fun graph _ previous => ?_) fun graph position absent previous => ?_
  · rcases mem_predecessors_reroot previous with isLabel | isOld
    · exact notFirst isLabel.1
    · exact isOld.2 rfl rfl
  · rcases mem_predecessors_reroot previous with isLabel | isOld
    · exact notFirst isLabel.1
    · exact absent isOld.1

theorem mem_successors_foldl_link (inside : source < graph.size) (apart : target ≠ source)
    (member : target ∈ targets) :
    target ∈ (targets.foldl (fun graph target => graph.link source target kind)
      graph).successors source := by
  refine foldl_makes (fun graph => source < graph.size) (fun graph => target ∈ graph.successors source)
    member inside (fun graph other _ inside => ?_) (fun graph inside => ?_) fun graph other isOld => ?_
  · rwa [size_link]
  · exact hasEdge_iff.mp (hasEdge_link.mpr (.inr ⟨rfl, rfl, Ne.symm apart, inside⟩))
  · exact hasEdge_iff.mp (hasEdge_link.mpr (.inl (hasEdge_iff.mpr isOld)))

/-! ## The cone of a guard -/

theorem mem_cone_of_mem_predecessors (mirrored : graph.IsMirrored) (waits : graph.WaitsForData)
    (isLabel : graph.label = some 0) (exits : graph.earlyExit = some earlyExit)
    (member : node ∈ graph.cone guard) (free : (graph.op node).isFree)
    (previous : source ∈ graph.predecessors node) (notFirst : source ≠ 0) :
    source = earlyExit ∧ (graph.node node).dataInputs.contains earlyExit ∨
      source ∈ graph.cone guard := by
  obtain ⟨edge, isEdge, rfl⟩ := List.mem_map.mp previous
  have isData := (waits node free edge isEdge).resolve_right notFirst
  have input : edge.node ∈ (graph.node node).dataInputs :=
    List.mem_map.mpr ⟨edge, mem_filter.mpr ⟨isEdge, beq_iff_eq.mpr isData⟩, rfl⟩
  by_cases isExit : edge.node = earlyExit
  · exact .inl ⟨isExit, contains_iff_mem.mpr (isExit ▸ input)⟩
  right
  have isNext : edge.node ∈ graph.coneInputs node :=
    mem_filter.mpr ⟨input, by simp [isLabel, exits, notFirst, isExit]⟩
  refine (Search.mem_visit_of_mem_next member isNext ?_).resolve_right
    (Search.getElem?_replicate_ne _ _)
  rw [Array.size_replicate]
  exact mirrored.source_lt previous

theorem mem_cone_self (inside : guard < graph.size) : guard ∈ graph.cone guard := by
  refine (Search.mem_visit_of_mem_stack mem_cons_self ?_).resolve_right
    (Search.getElem?_replicate_ne _ _)
  rwa [Array.size_replicate]

/-! ## Moved guards -/

/-- The early exit, or a node with an effect. -/
def IsBarrier (start : DependencyGraph) (earlyExit node : Nat) : Prop :=
  node = earlyExit ∨ node ∈ start.effects

/-- Compared with the graph at the start some relaxed guards have been moved: they are ahead, and
they precede the early exit and every effect.  All other edges still lead forward. -/
structure IsPulledUp (start : DependencyGraph) (earlyExit : Nat) (done : List Nat)
    (graph : DependencyGraph) : Prop where
  mirrored : graph.IsMirrored
  size : graph.size = start.size
  op : ∀ node, graph.op node = start.op node
  exits : graph.earlyExit = some earlyExit
  data : graph.WaitsForData
  forward : ∀ source target, source ∈ graph.predecessors target →
    source < target ∨ (start.op source).isRelaxed = true ∧ start.IsBarrier earlyExit target
  ahead : ∀ guard ∈ done, graph.IsAhead guard
  edges : ∀ guard ∈ done, ∀ target, start.IsBarrier earlyExit target →
    target ∈ graph.successors guard

section

variable (isLabel : (start.op 0).opcode = .label)
  (isExit : (start.op earlyExit).opcode = .guardEarlyExit)

include isExit

theorem IsBarrier.isFree_eq_false (barrier : start.IsBarrier earlyExit node) :
    (start.op node).isFree = false := by
  refine Bool.eq_false_iff.mpr fun free => ?_
  obtain ⟨noAccess, _, _, noExit⟩ := traits_of_isFree free
  rcases barrier with rfl | isEffect
  · exact noExit isExit
  · have effect : (start.op node).opcode.hasSideEffect = true := (mem_filter.mp isEffect).2
    rw [(Bool.or_eq_false_iff.mp noAccess).2] at effect
    cases effect

include isLabel

theorem IsBarrier.pos (barrier : start.IsBarrier earlyExit node) : 0 < node := by
  refine Nat.pos_of_ne_zero fun isFirst => ?_
  subst isFirst
  rcases barrier with rfl | isEffect
  · rw [isLabel] at isExit
    cases isExit
  · have effect : (start.op 0).opcode.hasSideEffect = true := (mem_filter.mp isEffect).2
    rw [isLabel] at effect
    cases effect

namespace IsPulledUp

section

variable (pulled : IsPulledUp start earlyExit done graph)

include pulled

theorem predecessors_zero : graph.predecessors 0 = [] := by
  refine eq_nil_iff_forall_not_mem.mpr fun source previous => ?_
  rcases pulled.forward source 0 previous with before | ⟨_, barrier⟩
  · exact Nat.not_lt_zero source before
  · exact Nat.lt_irrefl 0 (barrier.pos isLabel isExit)

theorem not_isAhead (barrier : start.IsBarrier earlyExit node) : ¬ graph.IsAhead node := by
  intro ahead
  rcases ahead.isFree with rfl | free
  · exact Nat.lt_irrefl 0 (barrier.pos isLabel isExit)
  · rw [pulled.op, barrier.isFree_eq_false isExit] at free
    cases free

theorem reroot (free : (start.op position).isFree) (inside : position < start.size) :
    IsPulledUp start earlyExit done (graph.reroot 0 earlyExit position) := by
  have notFirst : 0 < position := by
    refine Nat.pos_of_ne_zero fun isFirst => ?_
    rw [isFirst] at free
    exact (traits_of_isFree free).2.2.1 isLabel
  rw [← pulled.size] at inside
  refine ⟨?_, (size_reroot _ _ _ _).trans pulled.size,
    fun node => (op_reroot _ _ _ _ node).trans (pulled.op node), ?_,
    fun node isFree edge member => ?_, fun source target previous => ?_,
    fun guard isDone => ?_, fun guard isDone target barrier => ?_⟩
  · exact pulled.mirrored.reroot earlyExit inside
  · exact (earlyExit_link _ _ _ _).trans pulled.exits
  · rw [op_reroot] at isFree
    rcases mem_depends_reroot member with isFirst | isOld
    · exact .inr isFirst.1
    · exact pulled.data node isFree edge isOld.1
  · rcases mem_predecessors_reroot previous with ⟨rfl, rfl⟩ | isOld
    · exact .inl notFirst
    · exact pulled.forward source target isOld.1
  · refine (pulled.ahead guard isDone).mono (op_reroot _ _ _ _) fun source target _ previous => ?_
    exact (mem_predecessors_reroot previous).imp And.left And.left
  · refine mem_successors_reroot (pulled.edges guard isDone target barrier) ?_
    rintro rfl
    exact pulled.not_isAhead isLabel isExit (.inl rfl) (pulled.ahead guard isDone)

end

omit isLabel isExit in
theorem raise (pulled : IsPulledUp start earlyExit done graph) (position : Nat) :
    IsPulledUp start earlyExit done
      (graph.modifyNode position fun node => { node with priority := max node.priority 10 }) := by
  have same : graph.SameEdges
      (graph.modifyNode position fun node => { node with priority := max node.priority 10 }) :=
    sameEdges_modifyNode graph position (fun _ => rfl) fun _ => rfl
  have sameOp : ∀ node, (graph.modifyNode position fun node =>
      { node with priority := max node.priority 10 }).op node = graph.op node :=
    op_modifyNode graph position fun _ => rfl
  refine ⟨pulled.mirrored.of_sameEdges same, same.size.trans pulled.size,
    fun node => (sameOp node).trans (pulled.op node), pulled.exits,
    pulled.data.of_sameEdges same sameOp, fun source target previous => ?_, fun guard isDone => ?_,
    fun guard isDone target barrier => ?_⟩
  · rw [same.predecessors] at previous
    exact pulled.forward source target previous
  · refine (pulled.ahead guard isDone).mono sameOp fun source target _ previous => ?_
    rw [same.predecessors] at previous
    exact .inr previous
  · rw [same.successors]
    exact pulled.edges guard isDone target barrier

omit isLabel in
theorem link (pulled : IsPulledUp start earlyExit done graph)
    (relaxed : (start.op guard).isRelaxed) (near : guard < start.size)
    (barrier : start.IsBarrier earlyExit position) (far : position < start.size) :
    IsPulledUp start earlyExit done (graph.link guard position .pullUp) := by
  rw [← pulled.size] at near far
  have bound := barrier.isFree_eq_false isExit
  refine ⟨pulled.mirrored.link .pullUp near far, (size_link _ _ _ _).trans pulled.size,
    fun node => (op_link _ _ _ _ node).trans (pulled.op node),
    (earlyExit_link _ _ _ _).trans pulled.exits, pulled.data.link (.inr (pulled.op _ ▸ bound)),
    fun source target previous => ?_, fun guard isDone => ?_, fun guard isDone target barrier => ?_⟩
  · rcases of_mem_predecessors_link previous with isOld | ⟨rfl, rfl⟩
    · exact pulled.forward source target isOld
    · exact .inr ⟨relaxed, barrier⟩
  · refine (pulled.ahead guard isDone).mono (op_link _ _ _ _) fun source target free previous => ?_
    rcases of_mem_predecessors_link previous with isOld | ⟨_, rfl⟩
    · exact .inr isOld
    · rw [pulled.op, bound] at free
      cases free
  · rw [successors_link]
    exact mem_append_left _ (pulled.edges guard isDone target barrier)

theorem rerootAll (pulled : IsPulledUp start earlyExit done graph)
    (free : ∀ node ∈ positions, (start.op node).isFree ∧ node < start.size) :
    IsPulledUp start earlyExit done
        (positions.foldl (fun graph node => graph.reroot 0 earlyExit node) graph) ∧
      ∀ source target, source ∈ (positions.foldl (fun graph node =>
        graph.reroot 0 earlyExit node) graph).predecessors target →
          source = 0 ∨ source ∈ graph.predecessors target := by
  refine foldl_keeps (motive := fun after => IsPulledUp start earlyExit done after ∧
    ∀ source target, source ∈ after.predecessors target →
      source = 0 ∨ source ∈ graph.predecessors target)
    ⟨pulled, fun _ _ => .inr⟩ fun after node member holds => ?_
  refine ⟨holds.1.reroot isLabel isExit (free node member).1 (free node member).2,
    fun source target previous => ?_⟩
  rcases mem_predecessors_reroot previous with isFirst | isOld
  · exact .inl isFirst.1
  · exact holds.2 source target isOld.1

omit isLabel isExit in
theorem raisePriority (pulled : IsPulledUp start earlyExit done graph) (positions : List Nat) :
    IsPulledUp start earlyExit done (graph.raisePriority positions) ∧
      graph.SameEdges (graph.raisePriority positions) :=
  foldl_keeps (motive := fun after => IsPulledUp start earlyExit done after ∧
    graph.SameEdges after) ⟨pulled, SameEdges.refl graph⟩ fun _ position _ holds =>
      ⟨holds.1.raise position,
        holds.2.trans (sameEdges_modifyNode _ position (fun _ => rfl) fun _ => rfl)⟩

omit isLabel in
/-- A relaxed guard precedes some barriers; free nodes wait for nothing new. -/
theorem linkAll (pulled : IsPulledUp start earlyExit done graph)
    (relaxed : (start.op guard).isRelaxed) (near : guard < start.size)
    (barriers : ∀ node ∈ targets, start.IsBarrier earlyExit node ∧ node < start.size) :
    IsPulledUp start earlyExit done
        (targets.foldl (fun graph target => graph.link guard target .pullUp) graph) ∧
      ∀ source target, (start.op target).isFree → source ∈ (targets.foldl
        (fun graph target => graph.link guard target .pullUp) graph).predecessors target →
          source ∈ graph.predecessors target := by
  refine foldl_keeps (motive := fun after => IsPulledUp start earlyExit done after ∧
    ∀ source target, (start.op target).isFree = true → source ∈ after.predecessors target →
      source ∈ graph.predecessors target)
    ⟨pulled, fun _ _ _ => id⟩ fun after node member holds => ?_
  obtain ⟨barrier, far⟩ := barriers node member
  refine ⟨holds.1.link isExit relaxed near barrier far, fun source target free previous => ?_⟩
  rcases of_mem_predecessors_link previous with isOld | ⟨_, rfl⟩
  · exact holds.2 source target free isOld
  · rw [barrier.isFree_eq_false isExit] at free
    cases free

/-- Once nothing in a cone waits for the early exit, the whole cone is ahead: its nodes wait for the
label and for earlier nodes of the cone. -/
theorem isAhead_of_mem_cone (pulled : IsPulledUp start earlyExit done graph)
    (free : ∀ node ∈ graph.cone guard, (start.op node).isFree)
    (sameOp : ∀ node, moved.op node = start.op node)
    (fewer : ∀ source target, (start.op target).isFree →
      source ∈ moved.predecessors target → source = 0 ∨ source ∈ graph.predecessors target)
    (cut : ∀ node ∈ graph.cone guard, (graph.node node).dataInputs.contains earlyExit →
      earlyExit ∉ moved.predecessors node) (member : node ∈ graph.cone guard) :
    moved.IsAhead node := by
  induction node using Nat.strongRecOn with
  | ind node ih =>
    have isFree := free node member
    refine .node (sameOp node ▸ isFree) fun source previous => ?_
    by_cases isFirst : source = 0
    · rw [isFirst]
      exact .first
    have isOld := (fewer source node isFree previous).resolve_left isFirst
    have label : graph.label = some 0 := by
      refine label_of_isLabel (Nat.zero_lt_of_lt (lt_size_of_mem_predecessors isOld)) ?_
      rw [pulled.op]
      exact isLabel
    rcases mem_cone_of_mem_predecessors pulled.mirrored pulled.data label pulled.exits member
      (pulled.op node ▸ isFree) isOld isFirst with ⟨rfl, isFed⟩ | isCone
    · exact absurd previous (cut node member isFed)
    refine ih source ?_ isCone
    refine (pulled.forward source node isOld).resolve_right fun back => ?_
    rw [back.2.isFree_eq_false isExit] at isFree
    cases isFree

theorem pullUpGuard? (pulled : IsPulledUp start earlyExit done graph)
    (inside : earlyExit < start.size) (relaxed : (start.op guard).isRelaxed)
    (isNode : guard < start.size)
    (isMoved : graph.pullUpGuard? 0 earlyExit start.effects guard = some moved) :
    IsPulledUp start earlyExit (guard :: done) moved := by
  obtain ⟨cone, rfl⟩ := pullUpGuard?_eq_some isMoved
  have free : ∀ node ∈ graph.cone guard, (start.op node).isFree = true ∧ node < start.size := by
    intro node member
    obtain ⟨inRange, isGuard | isPure⟩ := cone node member
    · rw [isGuard]
      exact ⟨isFree_of_isRelaxed relaxed, isNode⟩
    · rw [pulled.op] at isPure
      exact ⟨by rw [isFree, isPure, Bool.true_or], pulled.size ▸ inRange⟩
  have barriers : ∀ node ∈ earlyExit :: start.effects,
      start.IsBarrier earlyExit node ∧ node < start.size := by
    intro node member
    refine ⟨mem_cons.mp member, ?_⟩
    rcases mem_cons.mp member with rfl | isEffect
    · exact inside
    · exact mem_range.mp (mem_filter.mp isEffect).1
  have fed : ∀ node ∈ (graph.cone guard).filter fun node =>
      (graph.node node).dataInputs.contains earlyExit,
      (start.op node).isFree = true ∧ node < start.size :=
    fun node member => free node (mem_filter.mp member).1
  -- The label feeds the cone in place of the early exit, then the guard precedes all barriers.
  obtain ⟨rerooted, fewer⟩ := pulled.rerootAll isLabel isExit fed
  obtain ⟨raised, same⟩ := rerooted.raisePriority (graph.cone guard)
  obtain ⟨linked, back⟩ := raised.linkAll isExit relaxed isNode barriers
  have ahead : IsAhead _ guard := pulled.isAhead_of_mem_cone isLabel isExit
    (fun node member => (free node member).1) linked.op
    (fun source target isFree previous => fewer source target
      (same.predecessors target ▸ back source target isFree previous))
    (fun node member isFed previous => not_mem_predecessors_foldl_reroot
      (Nat.ne_of_gt (IsBarrier.pos isLabel isExit (.inl rfl)))
      (mem_filter.mpr ⟨member, isFed⟩)
      (same.predecessors node ▸ back earlyExit node (free node member).1 previous))
    (mem_cone_self (pulled.size ▸ isNode))
  refine { linked with ahead := fun other isDone => ?_, edges := fun other isDone target barrier => ?_ }
  · rcases mem_cons.mp isDone with rfl | isOld
    · exact ahead
    · exact linked.ahead other isOld
  · rcases mem_cons.mp isDone with rfl | isOld
    · refine mem_successors_foldl_link (raised.size ▸ isNode) ?_ (mem_cons.mpr barrier)
      rintro rfl
      exact linked.not_isAhead isLabel isExit barrier ahead
    · exact linked.edges other isOld target barrier

theorem pullUpGuards {guards : List Nat} (pulled : IsPulledUp start earlyExit done graph)
    (inside : earlyExit < start.size)
    (relaxed : ∀ guard ∈ guards, (start.op guard).isRelaxed ∧ guard < start.size)
    (isMoved : DependencyGraph.pullUpGuards 0 earlyExit start.effects guards graph = (true, moved))
    : IsPulledUp start earlyExit (guards.reverse ++ done) moved := by
  induction guards generalizing graph done with
  | nil =>
    cases isMoved
    exact pulled
  | cons guard rest ih =>
    obtain ⟨isRelaxed, isNode⟩ := relaxed guard mem_cons_self
    unfold DependencyGraph.pullUpGuards at isMoved
    split at isMoved
    next next isNext =>
      rw [reverse_cons, append_assoc]
      exact ih (pulled.pullUpGuard? isLabel isExit inside isRelaxed isNode isNext)
        (fun other member => relaxed other (mem_cons_of_mem _ member)) isMoved
    · cases isMoved

/-- No path leads from a barrier to a moved guard. -/
theorem not_reaches (pulled : IsPulledUp start earlyExit done graph) (isDone : guard ∈ done)
    (barrier : start.IsBarrier earlyExit node) : ¬ graph.Reaches node guard := by
  intro path
  exact pulled.not_isAhead isLabel isExit barrier (IsAhead.of_reaches pulled.mirrored
    (pulled.predecessors_zero isLabel isExit) path (pulled.ahead guard isDone))

omit isLabel isExit in
/-- A path leads forward, or over an edge from a relaxed guard to a barrier. -/
theorem lt_or_exists_of_reaches (pulled : IsPulledUp start earlyExit done graph)
    (path : graph.Reaches source target) :
    source < target ∨ ∃ guard barrier, (start.op guard).isRelaxed ∧
      start.IsBarrier earlyExit barrier ∧ barrier ∈ graph.successors guard ∧
      (source = guard ∨ graph.Reaches source guard) ∧
      (barrier = target ∨ graph.Reaches barrier target) := by
  have step : ∀ {source target}, graph.hasEdge source target = true →
      source < target ∨ (start.op source).isRelaxed = true ∧ start.IsBarrier earlyExit target :=
    fun isEdge => pulled.forward _ _ (pulled.mirrored.mem_iff.mp (hasEdge_iff.mp isEdge))
  induction path with
  | single isEdge =>
    refine (step isEdge).imp_right fun back => ?_
    exact ⟨_, _, back.1, back.2, hasEdge_iff.mp isEdge, .inl rfl, .inl rfl⟩
  | tail path isEdge ih =>
    rcases ih with before | ⟨guard, barrier, isRelaxed, isBarrier, next, front, rest⟩
    · refine (step isEdge).imp (Nat.lt_trans before) fun back => ?_
      exact ⟨_, _, back.1, back.2, hasEdge_iff.mp isEdge, .inr path, .inl rfl⟩
    refine .inr ⟨guard, barrier, isRelaxed, isBarrier, next, front, .inr ?_⟩
    rcases rest with rfl | rest
    · exact .single isEdge
    · exact .tail rest isEdge

/-- Once all relaxed guards have been moved, there are no cycles. -/
theorem acyclic (pulled : IsPulledUp start earlyExit done graph)
    (all : ∀ guard < start.size, (start.op guard).isRelaxed → guard ∈ done) (node : Nat) :
    ¬ graph.Reaches node node := by
  intro cycle
  rcases pulled.lt_or_exists_of_reaches cycle with
    before | ⟨guard, barrier, isRelaxed, isBarrier, next, front, rest⟩
  · exact Nat.lt_irrefl node before
  have isDone := all guard (pulled.size ▸ lt_size_of_mem_successors next) isRelaxed
  -- The cycle closes a path from the barrier back to the guard.
  have path : barrier = guard ∨ graph.Reaches barrier guard := by
    rcases rest with rfl | rest <;> rcases front with rfl | front
    · exact .inl rfl
    · exact .inr front
    · exact .inr rest
    · exact .inr (rest.trans front)
  rcases path with rfl | path
  · exact pulled.not_isAhead isLabel isExit isBarrier (pulled.ahead _ isDone)
  · exact pulled.not_reaches isLabel isExit isDone isBarrier path

end IsPulledUp

end

/-- When all relaxed guards can be moved, they all have been. -/
theorem isPulledUp_of_pullUpRelaxedGuards (built : ofOperations ops = .ok graph)
    (isLabel : graph.label = some 0) (exits : graph.earlyExit = some earlyExit)
    (isMoved : graph.pullUpRelaxedGuards = (true, moved)) :
    ∃ done, graph.IsPulledUp earlyExit done moved ∧
      ∀ guard < graph.size, (graph.op guard).isRelaxed → guard ∈ done := by
  obtain ⟨_, firstLabel, _⟩ := label_eq_some isLabel
  obtain ⟨inside, isExit⟩ := earlyExit_eq_some built exits
  have start : graph.IsPulledUp earlyExit [] graph :=
    ⟨isMirrored_of_ofOperations built, rfl, fun _ => rfl, exits,
      waitsForData_of_ofOperations built (by rw [exits]; rfl),
      fun _ _ previous => .inl (lt_of_mem_predecessors built previous),
      fun _ member => absurd member not_mem_nil,
      fun _ member => absurd member not_mem_nil⟩
  unfold pullUpRelaxedGuards at isMoved
  rw [isLabel, exits] at isMoved
  refine ⟨_, start.pullUpGuards firstLabel isExit inside (fun guard member => ?_) isMoved,
    fun guard isNode relaxed => ?_⟩
  · obtain ⟨isGuard, relaxed⟩ := mem_filter.mp member
    exact ⟨relaxed, ((mem_guards_iff built).mp isGuard).1⟩
  · rw [append_nil, mem_reverse]
    exact mem_filter.mpr
      ⟨(mem_guards_iff built).mpr ⟨isNode, isGuard_of_isRelaxed relaxed⟩, relaxed⟩

end LinearTrace.DependencyGraph
