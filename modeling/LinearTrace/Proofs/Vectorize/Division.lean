import LinearTrace.Proofs.Iteration
import LinearTrace.Proofs.Vectorize.Hoist
import LinearTrace.Proofs.Vectorize.Stages

/-!
# Divisions and the guards in front of them

Nothing in the graph ties a division to a guard that keeps its divisor from being zero.
Where a guard behind the division may be relaxed, the division can go in front of that
guard, and an iteration that was defined is no longer so.  This is the only way in which
relaxing guards makes an iteration divide by zero.
-/

namespace LinearTrace

open List Option

open DependencyGraph

/-- A guard fails and so keeps a division by zero behind it from being executed.  The division has
gone in front of it, and a guard behind the division may be relaxed. -/
structure Unprotects (setting : Setting) (ops : List Operation) (environment : Box → Const)
    (order : List Nat) (guard division relaxable : Nat) : Prop where
  between : guard < division ∧ division < relaxable
  overtakes : [division, guard].Sublist order
  fails : ∃ op, ops[guard]? = some op ∧
    setting.fails op (setting.settled ops environment) = true
  traps : ∃ op, ops[division]? = some op ∧
    setting.traps op (setting.settled ops environment) = true
  mayRelax : ∃ op, ops[relaxable]? = some op ∧ op.isGuard = true ∧
    op.opcode.isLoopGuard = false ∧ op.resume ≠ .atPosition

theorem Operation.LoosensTo.agrees {before after : Operation} (loosens : before.LoosensTo after) :
    Setting.Agrees before after :=
  ⟨loosens.opcode_eq, loosens.args_eq, loosens.result_eq⟩

theorem MayRelax.exists_op {ops : List Operation} {start : DependencyGraph} {earlyExit guard : Nat}
    (lists : start.Lists ops) (may : MayRelax start earlyExit guard) :
    ∃ op, ops[guard]? = some op ∧ op.isGuard ∧ op.opcode.isLoopGuard = false ∧
      op.resume ≠ .atPosition := by
  obtain ⟨isGuard, isCandidate⟩ := may
  have inside : guard < ops.length := by
    by_contra outside
    unfold DependencyGraph.op at isGuard
    rw [node_of_size_le (lists.size ▸ Nat.le_of_not_lt outside)] at isGuard
    cases isGuard
  have found := getElem?_eq_getElem inside
  have sameOp := lists.op guard _ found
  simp only [Relaxation.isCandidate, Bool.and_eq_true, Bool.not_eq_true', bne_iff_ne, ne_eq,
    sameOp] at isCandidate
  exact ⟨_, found, sameOp ▸ isGuard, isCandidate.1.2, isCandidate.2⟩

section

variable {ops : List Operation} {start graph : DependencyGraph} {earlyExit : Nat}
  {order relaxed : List Nat} {header : List Box}

theorem computesFrom_of_loosens (lists : start.Lists ops)
    (loosens : Loosens earlyExit start relaxed graph) (isOrder : graph.IsOrder order)
    (inScope : ScopedFrom header ops) (void : (start.op earlyExit).result = none)
    (feeds : ∀ node < start.size, start.FeedsArgs header node) :
    ComputesFrom header (order.map graph.op) := by
  have result : ∀ node, (graph.op node).bare.result = (start.op node).result :=
    fun node => (loosens.args_result node).2
  rw [ComputesFrom, List.map_map]
  refine isOrder.scopedFrom (fun node inside box isUse => ?_)
    (fun first second box isFirst isSecond => ?_) fun node box isResult => ?_
  · have isArg : .box box ∈ (graph.op node).args :=
      (mem_append.mp isUse).resolve_right not_mem_nil
    rw [(loosens.args_result node).1] at isArg
    refine (feeds node (loosens.size ▸ inside) box isArg).imp_right ?_
    rintro ⟨source, edge, isResult⟩
    have apart : source ≠ earlyExit := by
      rintro rfl
      exact some_ne_none box (isResult.symm.trans void)
    exact ⟨source, List.mem_map_of_mem (loosens.data source node apart edge),
      (result source).trans isResult⟩
  · exact lists.eq_of_result inScope first second box ((result first).symm.trans isFirst)
      ((result second).symm.trans isSecond)
  · exact lists.not_mem_of_result inScope node box ((result node).symm.trans isResult)

theorem settled_of_loosens (lists : start.Lists ops)
    (loosens : Loosens earlyExit start relaxed graph) (isOrder : graph.IsOrder order)
    (computes : ComputesFrom header ops) (stillComputes : ComputesFrom header (order.map graph.op))
    (setting : Setting) (environment : Box → Const) :
    setting.settled (order.map graph.op) environment = setting.settled ops environment := by
  refine setting.settled_eq_settled computes stillComputes (fun op isOp => ?_)
    fun other isOther => ?_
  · obtain ⟨node, found⟩ := mem_iff_getElem?.mp isOp
    have isNode : node ∈ order := by
      rw [isOrder.mem_iff, loosens.size, lists.size]
      exact (List.getElem?_eq_some_iff.mp found).1
    refine ⟨graph.op node, List.mem_map_of_mem isNode, ?_⟩
    rw [← lists.op node op found]
    exact (loosens.loosensTo node).agrees
  · obtain ⟨node, isNode, rfl⟩ := List.mem_map.mp isOther
    have inside : node < ops.length := by
      rw [← lists.size, ← loosens.size]
      exact isOrder.mem_iff.mp isNode
    refine ⟨ops[node], getElem_mem inside, ?_⟩
    rw [← lists.op node _ (getElem?_eq_getElem inside)]
    exact (loosens.loosensTo node).agrees

theorem exists_earlier_or_not_mem {place node : Nat}
    (isPlace : order[place]? = some node) (other : Nat) :
    (∃ earlier < place, order[earlier]? = some other) ∨
      ∃ front back, order = front ++ node :: back ∧ other ∉ front := by
  by_cases isEarlier : other ∈ order.take place
  · obtain ⟨earlier, isHere⟩ := mem_iff_getElem?.mp isEarlier
    rw [getElem?_take, ite_none_right_eq_some] at isHere
    exact .inl ⟨earlier, isHere⟩
  · obtain ⟨inside, isHere⟩ := List.getElem?_eq_some_iff.mp isPlace
    refine .inr ⟨order.take place, order.drop (place + 1), ?_, isEarlier⟩
    rw [← isHere, ← drop_eq_getElem_cons inside, take_append_drop]

/-- An iteration that was defined is so in the new order, or a guard no longer protects a
division: one that fails is still in front of the division, or the division has overtaken it. -/
theorem isDefined_or_unprotects (built : ofOperations ops = .ok start)
    (loosens : Loosens earlyExit start relaxed graph) (isSchedule : graph.IsSchedule order)
    (computes : ComputesFrom header ops) (stillComputes : ComputesFrom header (order.map graph.op))
    (setting : Setting) {environment : Box → Const} (defined : setting.isDefined ops environment) :
    setting.isDefined (order.map graph.op) environment ∨ ∃ guard division relaxable,
        Unprotects setting ops environment order guard division relaxable := by
  have lists := lists_of_ofOperations built
  rw [setting.isDefined_iff stillComputes,
    settled_of_loosens lists loosens isSchedule.toIsOrder computes stillComputes]
  by_contra neither
  obtain ⟨undefined, protects⟩ := not_or.mp neither
  refine undefined fun place op found isTrap => ?_
  rw [getElem?_map, map_eq_some_iff] at found
  obtain ⟨division, isPlace, rfl⟩ := found
  have inside : division < ops.length := by
    rw [← lists.size, ← loosens.size]
    exact isSchedule.mem_iff.mp (mem_of_getElem? isPlace)
  have isDivision := getElem?_eq_getElem inside
  have sameOp := lists.op division _ isDivision
  rw [setting.traps_of_agrees (loosens.loosensTo division).agrees, sameOp] at isTrap
  obtain ⟨guard, guardOp, before, isGuard, failing⟩ :=
    (setting.isDefined_iff computes).mp defined division _ isDivision isTrap
  rcases exists_earlier_or_not_mem isPlace guard with
    ⟨earlier, isBefore, isHere⟩ | ⟨front, back, isOrder, isLeft⟩
  · refine ⟨earlier, graph.op guard, isBefore, ?_, ?_⟩
    · rw [getElem?_map, isHere, map_some]
    · rw [setting.fails_of_agrees (loosens.loosensTo guard).agrees, lists.op guard guardOp isGuard]
      exact failing
  have noGuard : (start.op division).isGuard = false := by
    rw [sameOp]
    exact Opcode.isGuard_of_isDivision (Bool.and_eq_true_iff.mp isTrap).1
  have isMember : guard ∈ order := by
    rw [isSchedule.mem_iff, loosens.size, lists.size]
    exact Nat.lt_trans before inside
  obtain ⟨relaxable, isLater, may⟩ := loosens.exists_mayRelax isSchedule isOrder noGuard
    before isLeft
  exact absurd ⟨guard, division, relaxable, ⟨before, isLater⟩,
    sublist_of_not_mem isOrder isMember (Nat.ne_of_lt before) isLeft,
    ⟨guardOp, isGuard, failing⟩, ⟨_, isDivision, isTrap⟩, may.exists_op lists⟩ protects

end

theorem IsLoop.scopedFrom_header {ops body : List Operation} {label closing : Operation}
    (loop : IsLoop ops label body closing) : ScopedFrom label.argBoxes ops := by
  have inScope := loop.inScope
  rw [loop.shape] at inScope ⊢
  exact (scoped_iff_scopedFrom label _).mp inScope

/-- In the graph of a loop operands come from the header or along edges of data. -/
theorem IsLoop.feedsArgs {ops body : List Operation} {label closing : Operation}
    {graph : DependencyGraph} (loop : IsLoop ops label body closing) (void : label.result = none)
    (built : ofOperations ops = .ok graph) :
    ∀ node < graph.size, graph.FeedsArgs label.argBoxes node := by
  obtain rfl := loop.shape
  have fed : ∀ node < graph.size, graph.IsFed False label.argBoxes node :=
    isFed_of_ofOperations void loop.inScope False.elim built
  exact fun node inside => (fed node inside).args

/-- Where an iteration of a loop is defined up to its exit, it is so once guards were relaxed,
unless a division has gone in front of the guard that protects it, for a guard behind it that may
be relaxed. -/
theorem Vectorizer.isDefined_of_relaxGuards {before after : Vectorizer} {label closing : Operation}
    {body : List Operation} (loop : IsLoop before.ops label body closing)
    (void : ∀ op ∈ before.ops, op.opcode.resultClass = .void → op.result = none)
    (ran : relaxGuards before = .ok () after) (setting : Setting) {environment : Box → Const}
    (defined : setting.isDefined before.ops environment = true) :
    ∃ order, IsReordering order before.ops after.ops ∧
      (setting.isDefined after.ops environment = true ∨
        ∃ guard division relaxable, Unprotects setting before.ops environment order guard division
          relaxable) := by
  rcases ((ensures_relaxGuards before).of_ok ran).1 with
    same | ⟨start, relaxation, built, isRelaxation, scheduled⟩
  · rw [same]
    exact ⟨_, isReordering_range before.ops, Or.inl defined⟩
  · have lists := lists_of_ofOperations built
    have inScope := loop.scopedFrom_header
    have labelVoid : label.result = none := by
      refine void label ?_ (by rw [loop.isLabel]; rfl)
      rw [loop.shape]
      exact List.mem_cons_self
    obtain ⟨earlyExit, relaxed, isExit, _, loosens, _⟩ := exists_loosens built isRelaxation
    have exitVoid : (start.op earlyExit).result = none := by
      obtain ⟨inside, isOpcode⟩ := earlyExit_eq_some built isExit
      rw [lists.size] at inside
      rw [lists.op earlyExit _ (List.getElem?_eq_getElem inside)] at isOpcode ⊢
      exact void _ (List.getElem_mem inside) (by rw [isOpcode]; rfl)
    obtain ⟨order, isOrder, isSchedule⟩ := exists_order loosens.mirrored loosens.pack scheduled
    have stillComputes := computesFrom_of_loosens lists loosens isSchedule.toIsOrder inScope exitVoid
      (loop.feedsArgs labelVoid built)
    rw [isOrder]
    exact ⟨_, isReordering_of_loosens lists loosens isSchedule.toIsOrder, isDefined_or_unprotects
      built loosens isSchedule inScope.computesFrom stillComputes setting defined⟩

/-! ## A division whose divisor is checked -/

/-- A division by a box that is compared with zero first. -/
def CheckedDivision.inputs : List Value := [.box ⟨0, .int⟩, .box ⟨1, .int⟩]

namespace CheckedDivision

def label : Operation := { opcode := .label, args := inputs, descriptor := some (.target 1) }

def guarded (opcode : Opcode) (args : List Value) (resume : Resume) : Operation :=
  { opcode := opcode, args := args, descriptor := some (.guard resume),
    snapshot := some (.root inputs) }

def early : Operation := guarded .guardEarlyExit [] .atLoopHeader

def nonzero : Operation :=
  { opcode := .intNe, args := [.box ⟨1, .int⟩, .int 0], result := some ⟨2, .int⟩ }

def division : Operation :=
  { opcode := .intFloorDiv, args := inputs, result := some ⟨3, .int⟩ }

def small : Operation :=
  { opcode := .intLt, args := [.box ⟨3, .int⟩, .int 5], result := some ⟨4, .int⟩ }

def jump : Operation := { opcode := .jump, args := inputs, descriptor := some (.target 1) }

def body : List Operation :=
  [early, nonzero, guarded .guardTrue [.box ⟨2, .int⟩] .guard, division, small,
    guarded .guardTrue [.box ⟨4, .int⟩] .guard]

def reordered : List Operation :=
  [label, nonzero, division, small, guarded .guardTrue [.box ⟨2, .int⟩] .atLoopHeader,
    guarded .guardTrue [.box ⟨4, .int⟩] .atLoopHeader, early, jump]

def state : Vectorizer := .start .sse {} { ops := label :: (body ++ [jump]), supply := ⟨5⟩ }

def relaxed : Vectorizer := { state with ops := reordered, stats := { relaxed := 2 } }

theorem relaxes : Vectorizer.relaxGuards state = .ok () relaxed := by
  cbv

theorem isLoop : IsLoop state.ops label body jump :=
  ⟨rfl, rfl, by decide, .inl rfl, by decide⟩

/-- All guards that do not look at words pass. -/
def setting : Setting where
  heap := .empty
  otherwise _ _ := .int 0
  verdict _ _ := true

def environment (box : Box) : Const := .int (if box.id = 0 then 1 else 0)

theorem isDefined : setting.isDefined state.ops environment := by
  decide

theorem not_isDefined : setting.isDefined relaxed.ops environment = false := by
  decide

end CheckedDivision

open CheckedDivision in
/-- The division has gone in front of the guard that protects it, and divides by zero there. -/
theorem divides_of_checkedDivision :
    IsLoop state.ops label body jump ∧ Vectorizer.relaxGuards state = .ok () relaxed ∧
      setting.isDefined state.ops environment = true ∧
      setting.isDefined relaxed.ops environment = false :=
  ⟨isLoop, relaxes, isDefined, not_isDefined⟩

open CheckedDivision in
theorem unprotects_of_checkedDivision :
    ∃ order, IsReordering order state.ops relaxed.ops ∧
      ∃ guard division relaxable,
        Unprotects setting state.ops environment order guard division relaxable := by
  obtain ⟨order, isReordering, holds⟩ :=
    Vectorizer.isDefined_of_relaxGuards isLoop (by decide) relaxes setting isDefined
  refine ⟨order, isReordering, holds.resolve_left ?_⟩
  rw [not_isDefined]
  exact Bool.false_ne_true

end LinearTrace
