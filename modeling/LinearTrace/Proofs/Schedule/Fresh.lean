import LinearTrace.Proofs.Dependency.Anchor
import LinearTrace.Proofs.Dependency.Behind
import LinearTrace.Proofs.Dependency.Measure
import LinearTrace.Proofs.Schedule.Combined

/-!
# Schedules of fresh graphs

A graph that has just been built can be scheduled to its end without packs, whatever
the priorities of its nodes are.  The order begins with the label and ends with the
closing operation, boxes are defined before they are read, and effects, loads and the
guards that are kept in order stay behind the guards that they have to follow.  What
can fail is building the graph: it does just when two accesses lie too far apart to
be compared.
-/

namespace LinearTrace

open List DependencyGraph

/-- The operations in another order. -/
def reordered (ops : List Operation) (order : List Nat) : List Operation :=
  order.filterMap fun node => ops[node]?

/-- An order that keeps the ends of a trace, the flow of its data, and its guards. -/
structure IsOrderly (ops : List Operation) (order : List Nat) : Prop where
  complete : order.Perm (range ops.length)
  ends : ∃ between, order = 0 :: (between ++ [ops.length - 1])
  /-- Operands, and boxes of the snapshots of guards that are kept in order, are defined before. -/
  reads : ∀ place op, (reordered ops order)[place]? = some op → ∀ box,
    .box box ∈ op.awaited (DependencyGraph.unlinked ops).earlyExit →
      box ∈ definedBefore (reordered ops order) place
  /-- Effects, and guards that are kept in order, stay in front of later guards of that kind. -/
  tied : ∀ node guard, IsTiedAt ops node → IsChainedAt ops guard → node < guard →
    [node, guard].Sublist order
  /-- Effects and loads stay behind earlier guards that are kept in order. -/
  held : ∀ guard node, IsChainedAt ops guard → IsHeldAt ops node → guard < node →
    [guard, node].Sublist order

/-- A label, other operations, and a jump or the end of the trace, with every box defined once and
before it is read. -/
structure IsClosedTrace (ops : List Operation) (label : Operation) (body : List Operation)
    (closing : Operation) : Prop where
  shape : ops = label :: (body ++ [closing])
  isLabel : label.opcode = .label
  closes : closing.opcode = .jump ∨ closing.opcode = .finish
  inScope : Scoped ops

namespace DependencyGraph

variable {ops body : List Operation} {label closing : Operation} {graph : DependencyGraph}

theorem Lists.reordered_eq (lists : graph.Lists ops) {order : List Nat}
    (inside : ∀ node ∈ order, node < graph.size) : reordered ops order = order.map graph.op := by
  unfold reordered
  induction order with
  | nil => rfl
  | cons node rest ih =>
    have isOp : ops[node]? = some (graph.op node) := by
      have inList : node < ops.length := lists.size ▸ inside node mem_cons_self
      rw [lists.op node _ (getElem?_eq_getElem inList), getElem?_eq_getElem inList]
    rw [filterMap_cons, isOp, map_cons,
      ih fun other member => inside other (mem_cons_of_mem _ member)]

/-- A fresh graph is scheduled to its end, whatever the priorities. -/
theorem exists_order_of_ofOperations (built : ofOperations ops = .ok graph) (priority : Nat → Int) :
    ∃ turns order, (graph.withPriorities priority).schedule [] [] = (turns, none) ∧
      turns.map Prod.fst = order.map .node ∧ graph.IsOrder order := by
  have same := graph.sameEdges_withPriorities priority
  obtain ⟨turns, order, scheduled, isMap, isSchedule⟩ := exists_schedule_of_rank
    ((isMirrored_of_ofOperations built).of_sameEdges same)
    (fun node => (graph.pack_withPriorities priority node).trans
      ((isFresh_of_ofOperations built).pack node)) id fun source target previous =>
      lt_of_mem_predecessors built (same.predecessors target ▸ previous)
  refine ⟨turns, order, scheduled, isMap, same.size ▸ isSchedule.isPerm,
    fun earlier node later split source previous => ?_⟩
  exact isSchedule.ordered earlier node later split source (same.predecessors node ▸ previous)

section

variable {order : List Nat} (isOrder : graph.IsOrder order)

include isOrder

/-- An order begins with the only node that waits for nothing, and ends with the only one that
nothing waits for. -/
theorem exists_between (mirrored : graph.IsMirrored) (large : 1 < graph.size)
    (waits : ∀ node, 0 < node → node < graph.size → graph.predecessors node ≠ [])
    (provides : ∀ node, node + 1 < graph.size → graph.successors node ≠ []) :
    ∃ between, order = 0 :: (between ++ [graph.size - 1]) := by
  have length : order.length = graph.size := by
    rw [isOrder.isPerm.length_eq, length_range]
  obtain ⟨first, rest, rfl⟩ := exists_cons_of_length_pos (show 0 < order.length by omega)
  have notEmpty : rest ≠ [] := by
    rintro rfl
    rw [length_singleton] at length
    omega
  obtain ⟨between, last, rfl⟩ := eq_nil_or_concat' rest |>.resolve_left notEmpty
  have isFirst : first = 0 := by
    by_contra notFirst
    obtain ⟨source, previous⟩ := exists_mem_of_ne_nil _
      (waits first (Nat.pos_of_ne_zero notFirst) (isOrder.mem_iff.mp mem_cons_self))
    exact not_mem_nil (isOrder.ordered [] first _ rfl source previous)
  have isLast : last = graph.size - 1 := by
    by_contra notLast
    have inside : last < graph.size := isOrder.mem_iff.mp (by simp)
    obtain ⟨target, isNext⟩ := exists_mem_of_ne_nil _ (provides last (by omega))
    -- A node that follows the last one would have to come later.
    have follows := isOrder.sublist_of_reaches mirrored (.single (hasEdge_iff.mpr isNext))
    have distinct := isOrder.nodup
    rw [← cons_append] at follows distinct
    have isTarget : target ∈ first :: between ++ [last] := follows.subset (by simp)
    rcases mem_append.mp isTarget with isBefore | isSame
    · obtain ⟨front, back, isSplit⟩ := append_of_mem isBefore
      have isEarlier := isOrder.ordered front target (back ++ [last]) (by
        rw [← cons_append, isSplit, append_assoc, cons_append]) last
        (mirrored.mem_iff.mp isNext)
      have isBody : last ∈ first :: between := by
        rw [isSplit]
        exact mem_append_left _ isEarlier
      exact (nodup_append.mp distinct).2.2 last isBody last mem_cons_self rfl
    · rw [mem_singleton.mp isSame] at isNext
      exact mirrored.loopless last isNext
  exact ⟨between, by rw [isFirst, isLast]⟩

theorem mem_definedBefore_of_awaited (trace : IsClosedTrace ops label body closing)
    (built : ofOperations ops = .ok graph) (starts : ∃ rest, order = 0 :: rest) {place : Nat}
    {op : Operation} (found : (reordered ops order)[place]? = some op) {box : Box}
    (isValue : .box box ∈ op.awaited (unlinked ops).earlyExit) :
    box ∈ definedBefore (reordered ops order) place := by
  have lists := lists_of_ofOperations built
  have mirrored := isMirrored_of_ofOperations built
  have inside : ∀ node ∈ order, node < graph.size := fun _ => isOrder.mem_iff.mp
  have isFirst : graph.op 0 = label := lists.op 0 label (by rw [trace.shape]; rfl)
  rw [lists.reordered_eq inside] at found ⊢
  rw [getElem?_map, Option.map_eq_some_iff] at found
  obtain ⟨node, isNode, rfl⟩ := found
  obtain ⟨rest, rfl⟩ := starts
  have isOp : ops[node]? = some (graph.op node) := by
    have inList : node < ops.length := lists.size ▸ inside node (mem_of_getElem? isNode)
    rw [lists.op node _ (getElem?_eq_getElem inList), getElem?_eq_getElem inList]
  have isUse : .box box ∈ (graph.op node).uses := by
    rcases mem_append.mp isValue with isArg | isFailArg
    · exact mem_append_left _ isArg
    · split at isFailArg
      · exact mem_append_right _ isFailArg
      · cases isFailArg
  have isDefined := (trace.inScope.scopedIn isOp).1 _ isUse box rfl
  change box ∈ (graph.op 0).argBoxes ++ _
  rcases mem_append.mp isDefined with isInput | made
  · refine mem_append_left _ ?_
    rw [trace.shape] at isInput
    rw [isFirst]
    exact isInput
  refine mem_append_right _ ?_
  obtain ⟨maker, isBefore, isResult⟩ := mem_filterMap.mp made
  obtain ⟨source, before, rfl⟩ := mem_take_iff_getElem.mp isBefore
  have isMaker := getElem?_eq_getElem (Nat.lt_of_lt_of_le before (Nat.min_le_right _ _))
  have before := Nat.lt_of_lt_of_le before (Nat.min_le_left _ _)
  have isSplit : (0 :: rest) = (0 :: rest).take place ++ node :: (0 :: rest).drop (place + 1) := by
    rw [← (List.getElem?_eq_some_iff.mp isNode).2, ← drop_eq_getElem_cons,
      take_append_drop]
  -- The label comes first, and everything else that defines the box has an edge to the node.
  have isEarlier : source ∈ (0 :: rest).take place := by
    by_cases notFirst : source = 0
    · subst notFirst
      cases place with
      | zero =>
        cases isNode
        omega
      | succ place => exact mem_cons_self
    · have edge := hasEdge_of_awaitsAt trace.inScope built
        ⟨by omega, _, isOp, isValue⟩ ⟨notFirst, _, isMaker, isResult⟩ before
      exact isOrder.ordered _ node _ isSplit source (mirrored.mem_iff.mp (hasEdge_iff.mp edge))
  rw [← map_take]
  refine mem_filterMap.mpr ⟨graph.op source, List.mem_map_of_mem isEarlier, ?_⟩
  rw [lists.op source _ isMaker]
  exact isResult

end

theorem isOrderly_of_ofOperations (trace : IsClosedTrace ops label body closing)
    (built : ofOperations ops = .ok graph) {order : List Nat}
    (isOrder : graph.IsOrder order) : IsOrderly ops order := by
  have lists := lists_of_ofOperations built
  have mirrored := isMirrored_of_ofOperations built
  have shape := trace.shape
  subst shape
  have anchored := isAnchored_of_ofOperations trace.isLabel (by simp) built
  have isLast : (graph.op (graph.size - 1)).opcode.isFinal = true := by
    have found : (label :: (body ++ [closing]))[graph.size - 1]? = some closing := by
      rw [lists.size, ← List.getLast?_eq_getElem?, ← cons_append, getLast?_append]
      rfl
    rw [lists.op _ closing found]
    rcases trace.closes with isJump | isFinish
    · rw [isJump]
      rfl
    · rw [isFinish]
      rfl
  have ends := exists_between isOrder mirrored anchored.large anchored.waits
    fun node notLast => successors_ne_nil_of_ofOperations built isLast notLast
  refine ⟨lists.size ▸ isOrder.isPerm, lists.size ▸ ends, fun place op found box isValue => ?_,
    fun node guard tied chained before => ?_, fun guard node chained isHeld before => ?_⟩
  · obtain ⟨between, starts⟩ := ends
    exact mem_definedBefore_of_awaited isOrder trace built ⟨_, starts⟩ found isValue
  · refine isOrder.sublist_of_reaches mirrored ?_
    exact Relation.TransGen.mono (fun _ _ step => step.2.1) _ _
      (chainPath_of_ofOperations built tied chained before)
  · exact isOrder.sublist_of_reaches mirrored (reaches_of_isHeldAt built chained isHeld before)

end DependencyGraph

open DependencyGraph in
/-- The graph of a trace is built, and scheduled to its end in an orderly way whatever the
priorities are, just when no two of its accesses lie too far apart to be compared. -/
theorem exists_orderly_schedule_iff {ops body : List Operation} {label closing : Operation}
    (trace : IsClosedTrace ops label body closing) :
    (∃ graph, ofOperations ops = .ok graph ∧ ∀ priority : Nat → Int, ∃ turns order,
      (graph.withPriorities priority).schedule [] [] = (turns, none) ∧
      turns.map Prod.fst = order.map .node ∧ IsOrderly ops order) ↔
        ∀ first second, ¬ Unmeasured ops first second := by
  rw [← exists_ofOperations_iff]
  constructor
  · rintro ⟨graph, built, _⟩
    exact ⟨graph, built⟩
  · rintro ⟨graph, built⟩
    refine ⟨graph, built, fun priority => ?_⟩
    obtain ⟨turns, order, scheduled, isMap, isOrder⟩ :=
      exists_order_of_ofOperations built priority
    exact ⟨turns, order, scheduled, isMap, isOrderly_of_ofOperations trace built isOrder⟩

/-! ## A load between two guards -/

namespace GuardedLoad

def array : Value := .box ⟨0, .ref⟩

def flag : Value := .box ⟨1, .int⟩

def item : Box := ⟨2, .int⟩

def label : Operation := { opcode := .label, args := [array, flag] }

def guarded (condition : Value) : Operation :=
  { opcode := .guardTrue, args := [condition], descriptor := some (.guard .guard),
    snapshot := some (.root [array, flag]) }

def store : Operation :=
  { opcode := .setArrayItemRaw, args := [array, .int 0, flag],
    descriptor := some (.array (.ints 1 8)) }

def load : Operation :=
  { opcode := .getArrayItemRaw, args := [array, .int 1], result := some item,
    descriptor := some (.array (.ints 1 8)) }

def jump : Operation := { opcode := .jump, args := [array, flag] }

def body : List Operation := [guarded flag, store, load, guarded (.box item)]

def ops : List Operation := label :: (body ++ [jump])

theorem isClosedTrace : IsClosedTrace ops label body jump :=
  ⟨rfl, rfl, .inl rfl, by decide⟩

theorem exists_graph : ∃ graph, ofOperations ops = .ok graph := by
  have isOk : (ofOperations ops).isOk = true := by cbv
  cases built : ofOperations ops with
  | error fault =>
    rw [built] at isOk
    cases isOk
  | ok graph => exact ⟨graph, rfl⟩

end GuardedLoad

open GuardedLoad in
/-- The load stays between the guards, although later nodes have higher priorities. -/
theorem orderly_schedule_of_guardedLoad :
    ∃ graph, DependencyGraph.ofOperations ops = .ok graph ∧ ∃ turns order,
      (graph.withPriorities fun position => position).schedule [] [] = (turns, none) ∧
      turns.map Prod.fst = order.map .node ∧ IsOrderly ops order ∧
      [1, 3].Sublist order ∧ [1, 4].Sublist order := by
  obtain ⟨graph, built, scheduled⟩ := (exists_orderly_schedule_iff isClosedTrace).mpr
    (DependencyGraph.exists_ofOperations_iff.mp exists_graph)
  obtain ⟨turns, order, scheduled, isOrder, orderly⟩ := scheduled fun position => position
  have first : IsChainedAt ops 1 := ⟨guarded flag, rfl, rfl⟩
  have second : IsChainedAt ops 4 := ⟨guarded (.box item), rfl, rfl⟩
  exact ⟨graph, built, turns, order, scheduled, isOrder, orderly,
    orderly.held 1 3 first ⟨load, rfl, rfl⟩ (by decide),
    orderly.tied 1 4 (Or.inr first) second (by decide)⟩

/-! ## Stores at both ends of the range -/

namespace FarStores

def array : Value := .box ⟨0, .ref⟩

def item : Value := .box ⟨1, .int⟩

def label : Operation :=
  { opcode := .label, args := [array, item], descriptor := some (.target 1) }

def store (index : Int64) : Operation :=
  { opcode := .setArrayItemRaw, args := [array, .int index, item],
    descriptor := some (.array (.ints 1 8)) }

def jump : Operation :=
  { opcode := .jump, args := [array, item], descriptor := some (.target 1) }

def body : List Operation := [store Int64.minValue, store 0]

def ops : List Operation := label :: (body ++ [jump])

end FarStores

open FarStores in
/-- The distance from the second store to the first has no absolute value, and the graph is not
built. -/
theorem overflow_of_farStores :
    IsClosedTrace ops label body jump ∧
      DependencyGraph.ofOperations ops = .error (.abort .overflow) :=
  ⟨⟨rfl, rfl, Or.inl rfl, by decide⟩, rfl⟩

end LinearTrace
