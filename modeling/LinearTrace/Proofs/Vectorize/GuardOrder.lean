import Mathlib
import LinearTrace.Proofs.Fault
import LinearTrace.Proofs.Vectorize.Relaxation

/-!
# Exception guards and calls

Relaxing guards reorders the body of a loop.  Whatever is relaxed, edges still lead forward
except to the early exit, and among the nodes that are ready the first one goes first.  So a
guard only overtakes an earlier operation when it goes in front of the early exit, and it
only overtakes an effect when the chain of guards from the effect to it has been cut.
-/

namespace LinearTrace

open List Operation

open DependencyGraph

variable {before after : Operation} {order : List Nat} {position : Nat}

/-! ## Operations -/

/-- The operation may be the given one, or a guard that has come to resume at the loop header. -/
def Operation.LoosensTo (before after : Operation) : Prop :=
  after = before ∨ before.isGuard = true ∧ before.opcode ≠ .guardEarlyExit ∧ ∃ snapshot,
    after = { before with descriptor := some (.guard .atLoopHeader), snapshot := snapshot }

section

variable (loosens : before.LoosensTo after)

include loosens

theorem Operation.LoosensTo.opcode_eq : after.opcode = before.opcode := by
  rcases loosens with rfl | ⟨_, _, _, rfl⟩ <;> rfl

theorem Operation.LoosensTo.args_eq : after.args = before.args := by
  rcases loosens with rfl | ⟨_, _, _, rfl⟩ <;> rfl

theorem Operation.LoosensTo.result_eq : after.result = before.result := by
  rcases loosens with rfl | ⟨_, _, _, rfl⟩ <;> rfl

theorem Operation.LoosensTo.exitsEarly (early : before.exitsEarly) : after.exitsEarly := by
  rcases loosens with rfl | ⟨isGuard, _, snapshot, rfl⟩
  · exact early
  · exact Bool.and_eq_true_iff.mpr ⟨isGuard, rfl⟩

end

namespace Loosens

variable {start graph : DependencyGraph} {order relaxed earlier later : List Nat}
  {earlyExit guard late node : Nat}

section

variable (loosens : Loosens earlyExit start relaxed graph)

include loosens

theorem loosensTo (node : Nat) : (start.op node).LoosensTo (graph.op node) := by
  by_cases isRelaxed : node ∈ relaxed
  · obtain ⟨_, may⟩ := loosens.may node isRelaxed
    exact .inr ⟨may.1, may.apart.2, _, loosens.resumes node isRelaxed⟩
  · exact .inl (loosens.op node isRelaxed)

theorem exitsEarly (isRelaxed : node ∈ relaxed) : (graph.op node).exitsEarly := by
  rw [loosens.resumes node isRelaxed]
  exact Bool.and_eq_true_iff.mpr ⟨(loosens.may node isRelaxed).2.1, rfl⟩

theorem lowest_of_isGuard (isGuard : (start.op node).isGuard) : (graph.node node).priority = 0 :=
  loosens.lowest (Bool.eq_false_iff.mpr fun isPure =>
    Bool.false_ne_true ((Opcode.isGuard_of_isPure isPure).symm.trans isGuard))

end

/-! ## The new order -/

/-- What a node of the lowest priority overtakes waits for the early exit, and so the node overtakes
that too: the first one that is left in front of it can only wait for something later. -/
theorem exit_of_overtakes (loosens : Loosens earlyExit start relaxed graph)
    (isSchedule : graph.IsSchedule order) (split : order = earlier ++ late :: later)
    (lowest : (graph.node late).priority = 0) (before : node < late) (isLeft : node ∉ earlier) :
    earlyExit ≤ node ∧ earlyExit ∉ earlier ∧ (earlyExit = node ∨ graph.Reaches earlyExit node) := by
  have inside : late < graph.size := isSchedule.mem_iff.mp (by simp [split])
  induction node using Nat.strongRecOn with
  | ind node ih =>
    by_cases ready : ∀ source ∈ graph.predecessors node, source ∈ earlier
    · have outranks := isSchedule.outranks earlier late later split node
        (Nat.lt_trans before inside) isLeft ready
      have least := loosens.least node
      rw [Scheduler.Outranks, lowest] at outranks
      omega
    rw [not_forall] at ready
    obtain ⟨source, waits⟩ := ready
    rw [not_forall] at waits
    obtain ⟨previous, isWaiting⟩ := waits
    rcases loosens.forward source node previous with first | ⟨rfl, _⟩
    · obtain ⟨behind, left, path⟩ := ih source first (Nat.lt_trans first before) isWaiting
      have edge := hasEdge_iff.mpr (loosens.mirrored.mem_iff.mpr previous)
      refine ⟨Nat.le_trans behind (Nat.le_of_lt first), left, .inr ?_⟩
      rcases path with rfl | path
      · exact .single edge
      · exact .tail path edge
    · exact ⟨Nat.le_refl _, isLeft, .inl rfl⟩

section

variable {ops : List Operation} (mirrored : start.IsMirrored) (lists : start.Lists ops) (loosens :
  Loosens earlyExit start relaxed graph)

include mirrored lists loosens

theorem mem_predecessors (edge : start.hasEdge node guard) (chained : IsChainedAt ops guard)
    (unrelaxed : guard ∉ relaxed) : node ∈ graph.predecessors guard := by
  obtain ⟨op, found, isChained⟩ := chained
  have isGuard : (start.op guard).isGuard = true := by
    rw [lists.op guard op found]
    exact isGuard_of_isChained isChained
  refine (loosens.kept node guard (mirrored.mem_iff.mp (hasEdge_iff.mp edge))).resolve_right ?_
  rintro (isRelaxed | ⟨_, isPure, _⟩)
  · exact unrelaxed isRelaxed
  · exact Bool.false_ne_true ((Opcode.isGuard_of_isPure isPure).symm.trans isGuard)

theorem mem_of_chainPath (isOrder : graph.IsOrder order) (path : ChainPath ops start node guard)
    (unrelaxed : ∀ between, node < between → between ≤ guard → IsChainedAt ops between →
      between ∉ relaxed)
    (split : order = earlier ++ guard :: later) : node ∈ earlier := by
  induction path generalizing earlier later with
  | single edge =>
    obtain ⟨before, isEdge, chained⟩ := edge
    exact isOrder.ordered _ _ _ split node (loosens.mem_predecessors mirrored lists isEdge
      chained (unrelaxed _ before (Nat.le_refl _) chained))
  | tail path edge ih =>
    obtain ⟨before, isEdge, chained⟩ := edge
    have first : ∀ {target : Nat}, ChainPath ops start node target → node < target := by
      intro target path
      induction path with
      | single edge => exact edge.1
      | tail _ edge ih => exact Nat.lt_trans ih edge.1
    have isEarlier := isOrder.ordered _ _ _ split _ (loosens.mem_predecessors mirrored lists
      isEdge chained (unrelaxed _ (Nat.lt_trans (first path) before) (Nat.le_refl _) chained))
    obtain ⟨front, back, rfl⟩ := append_of_mem isEarlier
    rw [append_assoc] at split
    exact mem_append_left _ (ih (fun between after upTo => unrelaxed between after
      (Nat.le_trans upTo (Nat.le_of_lt before))) split)

end

end Loosens

/-! ## Exception guards -/

section

variable {order front back : List Nat} {first second : Nat}

theorem sublist_or_not_mem (first : Nat) (member : second ∈ order) : [first, second].Sublist order ∨
      ∃ front back, order = front ++ second :: back ∧ first ∉ front := by
  obtain ⟨front, back, rfl⟩ := append_of_mem member
  by_cases isFront : first ∈ front
  · exact .inl ((singleton_sublist.mpr isFront).append (singleton_sublist.mpr mem_cons_self))
  · exact .inr ⟨front, back, rfl, isFront⟩

theorem sublist_of_not_mem (isOrder : order = front ++ first :: back) (member : second ∈ order)
    (apart : second ≠ first) (isLeft : second ∉ front) : [first, second].Sublist order := by
  rw [isOrder, mem_append, mem_cons] at member
  have isBack := (member.resolve_left isLeft).resolve_left apart
  rw [isOrder]
  exact (List.Sublist.cons_cons first (singleton_sublist.mpr isBack)).trans
    (sublist_append_right front _)

end

/-- The operations are others in a given order, and some guards have come to resume at the loop
header. -/
def IsReordering (order : List Nat) (before after : List Operation) : Prop :=
  order.Perm (range before.length) ∧
    List.Forall₂ (fun position op => ∃ former, before[position]? = some former ∧
      former.LoosensTo op) order after

/-- Where each operation can be told by its code and its operands, so can its place. -/
theorem IsReordering.order_eq {before after : List Operation}
    (isReordering : IsReordering order before after)
    (distinct : (before.map fun op => (op.opcode, op.args)).Nodup) :
    order = after.map fun op =>
      before.findIdx fun other => other.opcode == op.opcode && other.args == op.args := by
  rw [← forall₂_eq_eq_eq]
  refine forall₂_map_right_iff.mpr (isReordering.2.imp fun position op placed => ?_)
  obtain ⟨former, found, loosens⟩ := placed
  obtain ⟨inside, isFormer⟩ := List.getElem?_eq_some_iff.mp found
  refine ((findIdx_eq inside).mpr ⟨?_, fun earlier isEarlier => ?_⟩).symm
  · simp [isFormer, loosens.opcode_eq, loosens.args_eq]
  rw [Bool.eq_false_iff]
  intro same
  refine pairwise_iff_getElem.mp (pairwise_map.mp distinct) earlier position
    (Nat.lt_trans isEarlier inside) inside isEarlier ?_
  simpa [isFormer, loosens.opcode_eq, loosens.args_eq] using same

/-- In the new order the guard from a position resumes at the loop header. -/
def ResumesEarly (order : List Nat) (after : List Operation) (position : Nat) : Prop :=
  ∃ (place : Nat) (op : Operation), order[place]? = some position ∧ after[place]? = some op ∧ op.exitsEarly = true

theorem resumesEarly_iff {after : List Operation} : ResumesEarly order after position ↔
      ∃ placed ∈ order.zip after, placed.1 = position ∧ placed.2.exitsEarly := by
  constructor
  · rintro ⟨place, op, isPlace, isOp, early⟩
    refine ⟨(position, op), mem_iff_getElem?.mpr ⟨place, ?_⟩, rfl, early⟩
    exact getElem?_zip_eq_some.mpr ⟨isPlace, isOp⟩
  · rintro ⟨⟨_, op⟩, member, rfl, early⟩
    obtain ⟨place, found⟩ := mem_iff_getElem?.mp member
    obtain ⟨isPlace, isOp⟩ := getElem?_zip_eq_some.mp found
    exact ⟨place, op, isPlace, isOp, early⟩

instance (order : List Nat) (after : List Operation) (position : Nat) :
    Decidable (ResumesEarly order after position) :=
  decidable_of_iff _ resumesEarly_iff.symm

/-- A guard has gone in front of the early exit and of an operation behind it.  When that operation
has an effect, a guard behind it resumes at the loop header: the guard itself, or one between them
that did not do so before. -/
structure Overtakes (before after : List Operation) (order : List Nat) (guard node : Nat) :
    Prop where
  exit : ∃ exit, before.findIdx? (fun op => op.opcode == .guardEarlyExit) = some exit ∧
    exit < node ∧ [guard, exit].Sublist order
  cut : ∀ op, before[node]? = some op → op.opcode.hasSideEffect = true →
    ∃ between, node < between ∧ between ≤ guard ∧ ResumesEarly order after between ∧
      (between = guard ∨ ∀ former, before[between]? = some former → former.exitsEarly = false)

theorem resumesEarly_map {graph : DependencyGraph}
    (member : position ∈ order) (early : (graph.op position).exitsEarly) :
    ResumesEarly order (order.map graph.op) position := by
  obtain ⟨place, isPlace⟩ := mem_iff_getElem?.mp member
  refine ⟨place, graph.op position, isPlace, ?_, early⟩
  rw [getElem?_map, isPlace, Option.map_some]

section

variable {ops : List Operation} {start graph : DependencyGraph}
  {order relaxed earlier later : List Nat} {earlyExit guard node : Nat} {op guardOp : Operation}

theorem isReordering_of_loosens (lists : start.Lists ops)
    (loosens : Loosens earlyExit start relaxed graph) (isOrder : graph.IsOrder order) :
    IsReordering order ops (order.map graph.op) := by
  have isPerm := isOrder.isPerm
  rw [loosens.size, lists.size] at isPerm
  refine ⟨isPerm, forall₂_map_right_iff.mpr (forall₂_same.mpr fun node member => ?_)⟩
  have inside := mem_range.mp (isPerm.mem_iff.mp member)
  have found := getElem?_eq_getElem inside
  refine ⟨_, found, ?_⟩
  rw [← lists.op node _ found]
  exact loosens.loosensTo node

theorem exitsEarly_of_not_isChained (lists : start.Lists ops)
    (loosens : Loosens earlyExit start relaxed graph) (found : ops[guard]? = some guardOp)
    (isGuard : guardOp.isGuard) (unchained : ¬ IsChainedAt ops guard) :
    (graph.op guard).exitsEarly := by
  have notChained : guardOp.isChained (unlinked ops).earlyExit = false :=
    Bool.eq_false_iff.mpr fun isChained => unchained ⟨guardOp, found, isChained⟩
  refine (loosens.loosensTo guard).exitsEarly ?_
  rw [lists.op guard guardOp found]
  rw [isChained, isGuard, Bool.true_and, Bool.not_eq_false', Bool.and_eq_true_iff,
    Bool.and_eq_true_iff] at notChained
  exact notChained.2.1

section

variable (built : ofOperations ops = .ok start) (isExit : start.earlyExit = some earlyExit)
  (loosens : Loosens earlyExit start relaxed graph) (isSchedule : graph.IsSchedule order)
  (split : order = earlier ++ guard :: later)

include built isExit loosens isSchedule split

/-- The last guard of a chain overtakes its start only when one of its guards has come to resume at
the loop header: otherwise the whole chain is still there. -/
theorem exists_isRelaxed_of_chainPath (path : ChainPath ops start node guard)
    (isLeft : node ∉ earlier) :
    ∃ between, node < between ∧ between ≤ guard ∧ between ∈ relaxed ∧
      ResumesEarly order (order.map graph.op) between ∧
      ∀ former, ops[between]? = some former → former.exitsEarly = false := by
  have lists := lists_of_ofOperations built
  by_contra unrelaxed
  refine isLeft (loosens.mem_of_chainPath (isMirrored_of_ofOperations built) lists
    isSchedule.toIsOrder path (fun between after upTo isChained isRelaxed => unrelaxed ?_) split)
  obtain ⟨inside, may⟩ := loosens.may between isRelaxed
  refine ⟨between, after, upTo, isRelaxed, resumesEarly_map (isSchedule.mem_iff.mpr
    (loosens.size ▸ inside)) (loosens.exitsEarly isRelaxed), fun former isFormer => ?_⟩
  obtain ⟨op, isChainedOp, chainedOp⟩ := isChained
  cases isFormer.symm.trans isChainedOp
  have exits : (unlinked ops).earlyExit = some earlyExit :=
    (earlyExit_of_ofOperations built).symm.trans isExit
  have isOther : (former.opcode != .guardEarlyExit) = true := by
    rw [← lists.op between former isFormer]
    exact bne_iff_ne.mpr may.apart.2
  simpa [isChained, exits, isOther, isGuard_of_isChained chainedOp] using chainedOp

/-- A guard overtakes an effect only when a guard behind the effect resumes at the loop header. -/
theorem exists_resumesEarly (found : ops[node]? = some op) (effect : op.opcode.hasSideEffect)
    (isGuardOp : ops[guard]? = some guardOp) (isGuard : guardOp.isGuard)
    (before : node < guard) (isLeft : node ∉ earlier) :
    ∃ between, node < between ∧ between ≤ guard ∧ ResumesEarly order (order.map graph.op) between ∧
      (between = guard ∨ ∀ former, ops[between]? = some former → former.exitsEarly = false) := by
  by_cases chained : IsChainedAt ops guard
  · obtain ⟨between, after, upTo, _, resumes, stayed⟩ := exists_isRelaxed_of_chainPath built isExit
      loosens isSchedule split
      (chainPath_of_ofOperations built (.inl ⟨op, found, effect⟩) chained before) isLeft
    exact ⟨between, after, upTo, resumes, .inr stayed⟩
  · have member : guard ∈ order := by simp [split]
    exact ⟨guard, before, Nat.le_refl _, resumesEarly_map member
      (exitsEarly_of_not_isChained (lists_of_ofOperations built) loosens isGuardOp isGuard chained),
      .inl rfl⟩

end

/-- Guards stay behind what preceded them, except for those that go in front of the early exit. -/
theorem exists_reordering {after : List Operation} (built : ofOperations ops = .ok start)
    (isExit : start.earlyExit = some earlyExit) (loosens : Loosens earlyExit start relaxed graph)
    (scheduled : Vectorizer.scheduledOperations graph = .ok after) :
    ∃ order, IsReordering order ops after ∧
      ∀ node guard op guardOp, ops[node]? = some op → ops[guard]? = some guardOp →
        op.opcode ≠ .guardEarlyExit → guardOp.isGuard → node < guard →
        [node, guard].Sublist order ∨ Overtakes ops after order guard node := by
  obtain ⟨order, rfl, isSchedule⟩ := exists_order loosens.mirrored loosens.pack scheduled
  have lists := lists_of_ofOperations built
  refine ⟨_, isReordering_of_loosens lists loosens isSchedule.toIsOrder,
    fun node guard op guardOp found isGuardOp noExit isGuard before => ?_⟩
  have inside : guard < start.size := lists.size ▸ (List.getElem?_eq_some_iff.mp isGuardOp).1
  have member : guard ∈ order := isSchedule.mem_iff.mpr (loosens.size ▸ inside)
  refine (sublist_or_not_mem node member).imp_right ?_
  rintro ⟨earlier, later, split, isLeft⟩
  obtain ⟨behind, exitLeft, _⟩ := loosens.exit_of_overtakes isSchedule split
    (loosens.lowest_of_isGuard (lists.op guard guardOp isGuardOp ▸ isGuard)) before isLeft
  obtain ⟨exitInside, isOpcode⟩ := earlyExit_eq_some built isExit
  refine ⟨⟨earlyExit, (earlyExit_of_ofOperations built).symm.trans isExit, ?_, ?_⟩,
    fun other isOther effect => ?_⟩
  · refine Nat.lt_of_le_of_ne behind fun same => noExit ?_
    rw [← lists.op node op found, ← same]
    exact isOpcode
  · refine sublist_of_not_mem split ?_ (by omega) exitLeft
    exact isSchedule.mem_iff.mpr (loosens.size ▸ exitInside)
  · cases found.symm.trans isOther
    exact exists_resumesEarly built isExit loosens isSchedule split found effect isGuardOp
      isGuard before isLeft

end

theorem isReordering_range (ops : List Operation) : IsReordering (range ops.length) ops ops := by
  refine ⟨.refl _, forall₂_iff_get.mpr ⟨length_range, fun place _ inside => ?_⟩⟩
  refine ⟨ops.get ⟨place, inside⟩, ?_, .inl rfl⟩
  simp

theorem sublist_range {first second count : Nat} (before : first < second)
    (inside : second < count) : [first, second].Sublist (range count) := by
  have isRange : range count = range second ++ range' second (count - second) := by
    have split := range'_append_1 (s := 0) (m := second) (n := count - second)
    rw [Nat.zero_add, Nat.add_sub_cancel' (Nat.le_of_lt inside)] at split
    rw [range_eq_range', range_eq_range', split]
  rw [isRange]
  exact (singleton_sublist.mpr (mem_range.mpr before)).append
    (singleton_sublist.mpr (mem_range'_1.mpr ⟨Nat.le_refl _, by omega⟩))

theorem Vectorizer.ensures_reordering (state : Vectorizer) :
    Ensures True relaxGuards state fun _ after =>
      ∃ order, IsReordering order state.ops after.ops ∧
        ∀ node guard op guardOp, state.ops[node]? = some op →
          state.ops[guard]? = some guardOp → op.opcode ≠ .guardEarlyExit →
          guardOp.isGuard → node < guard →
          [node, guard].Sublist order ∨ Overtakes state.ops after.ops order guard node := by
  refine .bind_get (Ensures.bind_lift (EnsuresValue.of_ok fun graph built => ?_))
  split
  · refine ⟨range state.ops.length, isReordering_range state.ops,
      fun node guard _ _ _ isGuardOp _ _ before => .inl ?_⟩
    exact sublist_range before (List.getElem?_eq_some_iff.mp isGuardOp).1
  next relaxation isRelaxation =>
    obtain ⟨earlyExit, relaxed, isExit, _, loosens, _⟩ := exists_loosens built isRelaxation
    exact .bind_lift (EnsuresValue.of_ok fun ops scheduled =>
      exists_reordering built isExit loosens scheduled)

/-- Exception guards stay behind the calls that preceded them, unless they overtake them together
with the early exit. -/
theorem Vectorizer.exceptionGuards_of_relaxGuards {before after : Vectorizer}
    (ran : relaxGuards before = .ok () after) :
    ∃ order, IsReordering order before.ops after.ops ∧
      ∀ call guard callOp guardOp, before.ops[call]? = some callOp →
        before.ops[guard]? = some guardOp → callOp.opcode.traits.call = true →
        guardOp.opcode = .guardNoException → call < guard →
        [call, guard].Sublist order ∨ Overtakes before.ops after.ops order guard call := by
  obtain ⟨order, isReordering, ordered⟩ := (ensures_reordering before).of_ok ran
  refine ⟨order, isReordering, fun call guard callOp guardOp found isGuardOp isCall isException => ?_⟩
  refine ordered call guard callOp guardOp found isGuardOp (fun isExit => ?_) ?_
  · rw [isExit] at isCall
    cases isCall
  · rw [Operation.isGuard, isException]
    rfl

/-! ## A call between the early exit and its exception guard -/

/-- A call in front of the early exit and one behind it, and an exception guard at the end. -/
def RaisingCalls.counter : Value := .box ⟨0, .int⟩

namespace RaisingCalls

def label : Operation := { opcode := .label, args := [counter], descriptor := some (.target 1) }

def call (function : Int64) : Operation :=
  { opcode := .call, args := [.int function], descriptor := some (.call { canRaise := true }) }

def guarded (opcode : Opcode) (resume : Resume) : Operation :=
  { opcode := opcode, args := [], descriptor := some (.guard resume),
    snapshot := some (.root [counter]) }

def jump : Operation := { opcode := .jump, args := [counter], descriptor := some (.target 1) }

def ops : List Operation :=
  [label, call 4096, guarded .guardEarlyExit .atLoopHeader, call 8192,
    guarded .guardNoException .guard, jump]

def reordered : List Operation :=
  [label, call 4096, guarded .guardNoException .atLoopHeader,
    guarded .guardEarlyExit .atLoopHeader, call 8192, jump]

def state : Vectorizer := .start .sse {} { ops := ops, supply := ⟨1⟩ }

def relaxed : Vectorizer := { state with ops := reordered, stats := { relaxed := 1 } }

theorem relaxes : Vectorizer.relaxGuards state = .ok () relaxed := by
  cbv

theorem order_eq {order : List Nat} (isReordering : IsReordering order ops reordered) :
    order = [0, 1, 4, 2, 3, 5] := by
  rw [isReordering.order_eq (by decide)]
  decide

end RaisingCalls

open RaisingCalls in
/-- The exception guard has gone in front of the second call, which may have raised. -/
theorem not_behind_of_raisingCalls :
    Vectorizer.relaxGuards state = .ok () relaxed ∧
      ∀ order, IsReordering order state.ops relaxed.ops → ¬ [3, 4].Sublist order := by
  refine ⟨relaxes, fun order isReordering => ?_⟩
  rw [order_eq isReordering]
  decide

open RaisingCalls in
/-- The exception guard stays behind the first call, and overtakes the second one together with the
early exit. -/
theorem exceptionGuards_of_raisingCalls :
    ∃ order, IsReordering order state.ops relaxed.ops ∧ [1, 4].Sublist order ∧
      Overtakes state.ops relaxed.ops order 4 3 := by
  obtain ⟨order, isReordering, ordered⟩ := Vectorizer.exceptionGuards_of_relaxGuards relaxes
  refine ⟨order, isReordering, ?_, ?_⟩
  · refine (ordered 1 4 _ _ rfl rfl rfl rfl (by decide)).resolve_right fun overtakes => ?_
    obtain ⟨exit, isExit, behind, _⟩ := overtakes.exit
    cases isExit
    exact absurd behind (by decide)
  · refine (ordered 3 4 _ _ rfl rfl rfl rfl (by decide)).resolve_left ?_
    rw [order_eq isReordering]
    decide

end LinearTrace
