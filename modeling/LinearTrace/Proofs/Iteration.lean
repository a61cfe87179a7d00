import LinearTrace.Proofs.Loop
import LinearTrace.Proofs.Scope.Sequence

/-!
# Iterations that divide

An iteration executes its operations one after the other, up to a guard that fails.  It
is defined up to there when none of them divides by zero.  In a sequence in which every
box is defined once and before it is an operand, each box has one value, whatever is
executed.  So an iteration is defined when a guard that fails stands in front of each
division by zero, and the values are the same for all such orders of the operations.
-/

namespace LinearTrace

open List

namespace Opcode

def isDivision : Opcode → Bool
  | .intFloorDiv | .uintFloorDiv | .intMod => true
  | _ => false

def dividesByZero (opcode : Opcode) (args : List Const) : Bool :=
  opcode.isDivision && args[1]? == some (.int 0)

theorem isGuard_of_isDivision {opcode : Opcode} (isDivision : opcode.isDivision) :
    opcode.isGuard = false := by
  revert isDivision
  cases opcode <;> decide

end Opcode

/-- The operation without what a guard that fails leaves behind. -/
def Operation.bare (op : Operation) : Operation :=
  { op with snapshot := none }

/-- Every operand is one of the boxes or a result from before, and every result is a new box. -/
def ComputesFrom (defined : List Box) (ops : List Operation) : Prop :=
  ScopedFrom defined (ops.map Operation.bare)

theorem ComputesFrom.mem_of_arg {op : Operation} {rest : List Operation} {defined : List Box}
    {box : Box} (computes : ComputesFrom defined (op :: rest)) (isArg : .box box ∈ op.args) :
    box ∈ defined :=
  computes.1.1 (.box box) (mem_append_left _ isArg) box rfl

theorem ComputesFrom.tail {op : Operation} {rest : List Operation} {defined : List Box}
    (computes : ComputesFrom defined (op :: rest)) :
    ComputesFrom (defined ++ op.result.toList) rest :=
  computes.2

theorem ScopedFrom.computesFrom {ops : List Operation} {defined : List Box}
    (inScope : ScopedFrom defined ops) : ComputesFrom defined ops := by
  induction ops generalizing defined with
  | nil => trivial
  | cons op rest ih =>
    obtain ⟨⟨reads, isNew⟩, others⟩ := inScope
    refine ⟨⟨fun value isUse => reads value (mem_append_left _ ?_), isNew⟩, ih others⟩
    exact (mem_append.mp isUse).resolve_right not_mem_nil

/-- What an iteration depends on beside the values of its boxes.  An operation that has no value on
its operands gets one, and a guard that its operands do not decide gets a verdict. -/
structure Setting where
  heap : Heap
  otherwise : Opcode → List Const → Const
  verdict : Opcode → List Const → Bool

namespace Setting

variable (setting : Setting) {ops rest : List Operation} {op other : Operation}
  {environment first second : Box → Const} {defined : List Box} {box : Box}

/-- Operations and guards as functions of the values of their operands. -/
def meaning : Interpretation Const Unit where
  literal := id
  perform opcode _ _ args _ := ((opcode.evaluate args).getD (setting.otherwise opcode args), ())
  passes opcode _ args _ := (opcode.check setting.heap args).getD (setting.verdict opcode args)

def operands (op : Operation) (environment : Box → Const) : List Const :=
  setting.meaning.values environment op.args

def result (op : Operation) (environment : Box → Const) : Const :=
  (setting.meaning.perform op.opcode op.descriptor (op.result.map Box.type)
    (setting.operands op environment) ()).1

def fails (op : Operation) (environment : Box → Const) : Bool :=
  op.isGuard &&
    !setting.meaning.passes op.opcode op.descriptor (setting.operands op environment) ()

def traps (op : Operation) (environment : Box → Const) : Bool :=
  op.opcode.dividesByZero (setting.operands op environment)

/-- No division by zero is executed before a guard fails or the end is reached. -/
def isDefined : List Operation → (Box → Const) → Bool
  | [], _ => true
  | op :: rest, environment =>
    if setting.fails op environment then true
    else !setting.traps op environment &&
      isDefined rest (Interpretation.define environment op.result (setting.result op environment))

/-- The values of the boxes once all operations have been computed. -/
def settled : List Operation → (Box → Const) → Box → Const
  | [], environment => environment
  | op :: rest, environment =>
    settled rest (Interpretation.define environment op.result (setting.result op environment))

/-! ## Operations on the same operands -/

theorem operands_congr (same : ∀ box, .box box ∈ op.args → first box = second box) :
    setting.operands op first = setting.operands op second := by
  refine map_congr_left fun value isArg => ?_
  cases value with
  | box box => exact same box isArg
  | const literal => rfl

/-- The operations compute the same result from the same operands. -/
structure Agrees (op other : Operation) : Prop where
  opcode : other.opcode = op.opcode
  args : other.args = op.args
  result : other.result = op.result

variable (agrees : Agrees op other)

include agrees

theorem operands_of_agrees (environment : Box → Const) :
    setting.operands other environment = setting.operands op environment := by
  unfold operands
  rw [agrees.args]

theorem result_of_agrees (environment : Box → Const) :
    setting.result other environment = setting.result op environment := by
  unfold result
  rw [setting.operands_of_agrees agrees, agrees.opcode]
  rfl

theorem fails_of_agrees (environment : Box → Const) :
    setting.fails other environment = setting.fails op environment := by
  unfold fails Operation.isGuard
  rw [setting.operands_of_agrees agrees, agrees.opcode]
  rfl

theorem traps_of_agrees (environment : Box → Const) :
    setting.traps other environment = setting.traps op environment := by
  unfold traps
  rw [setting.operands_of_agrees agrees, agrees.opcode]

omit agrees

/-! ## Settled values -/

theorem settled_of_not_result (apart : ∀ op ∈ ops, op.result ≠ some box) :
    setting.settled ops environment box = environment box := by
  induction ops generalizing environment with
  | nil => rfl
  | cons op rest ih =>
    rw [settled, ih fun other member => apart other (mem_cons_of_mem _ member)]
    have notHere := apart op mem_cons_self
    cases isResult : op.result with
    | none => rfl
    | some made =>
      refine Interpretation.define_of_ne (fun same => notHere ?_) _
      rw [isResult, same]

theorem ne_some_of_computesFrom (computes : ComputesFrom defined ops) (isOp : op ∈ ops)
    (isDefined : box ∈ defined) : op.result ≠ some box := by
  obtain ⟨position, found⟩ := mem_iff_getElem?.mp (List.mem_map_of_mem isOp)
  intro isResult
  exact (scopedFrom_iff_getElem?.mp computes position op.bare found).2 box isResult
    (mem_append_left _ isDefined)

theorem operands_settled (computes : ComputesFrom defined (op :: rest)) :
    setting.operands op (setting.settled (op :: rest) environment) =
      setting.operands op environment := by
  refine setting.operands_congr fun box isArg =>
    setting.settled_of_not_result fun other isOther => ?_
  exact ne_some_of_computesFrom computes isOther (computes.mem_of_arg isArg)

section

variable (computes : ComputesFrom defined ops)

include computes

theorem settled_eq_result (isOp : op ∈ ops)
    (isResult : op.result = some box) :
    setting.settled ops environment box = setting.result op (setting.settled ops environment) := by
  induction ops generalizing defined environment with
  | nil => cases isOp
  | cons head rest ih =>
    rcases mem_cons.mp isOp with rfl | isLater
    · have sameOperands : setting.operands op (setting.settled (op :: rest) environment) =
          setting.operands op environment := setting.operands_settled computes
      unfold result
      rw [sameOperands, settled, setting.settled_of_not_result, isResult]
      · exact Interpretation.define_self environment box _
      intro other isOther
      refine ne_some_of_computesFrom computes.tail isOther ?_
      rw [isResult]
      exact mem_append_right _ mem_cons_self
    · exact ih computes.tail isLater

/-- Values that the operations compute from each other are determined by those at the start. -/
theorem eq_of_result
    (sameStart : ∀ box ∈ defined, first box = second box)
    (computesFirst : ∀ op ∈ ops, ∀ box, op.result = some box → first box = setting.result op first)
    (computesSecond : ∀ op ∈ ops, ∀ box, op.result = some box →
      second box = setting.result op second)
    (isOp : op ∈ ops) (isResult : op.result = some box) :
    first box = second box := by
  induction ops generalizing defined with
  | nil => cases isOp
  | cons head rest ih =>
    have sameHead : ∀ box, head.result = some box → first box = second box := by
      intro made isMade
      rw [computesFirst head mem_cons_self made isMade,
        computesSecond head mem_cons_self made isMade]
      unfold result
      rw [setting.operands_congr fun arg isArg => sameStart arg (computes.mem_of_arg isArg)]
    rcases mem_cons.mp isOp with rfl | isLater
    · exact sameHead box isResult
    refine ih computes.tail (fun made isMade => ?_)
      (fun other isOther => computesFirst other (mem_cons_of_mem _ isOther))
      (fun other isOther => computesSecond other (mem_cons_of_mem _ isOther)) isLater
    rcases mem_append.mp isMade with isOld | isNew
    · exact sameStart made isOld
    · exact sameHead made (Option.mem_toList.mp isNew)

theorem settled_eq_settled {others : List Operation}
    (otherComputes : ComputesFrom defined others)
    (forth : ∀ op ∈ ops, ∃ other ∈ others, Agrees op other)
    (back : ∀ other ∈ others, ∃ op ∈ ops, Agrees op other) :
    setting.settled others environment = setting.settled ops environment := by
  funext box
  by_cases made : ∃ op ∈ ops, op.result = some box
  · obtain ⟨op, isOp, isResult⟩ := made
    refine setting.eq_of_result computes (fun box isStart => ?_) (fun op isOp box isResult => ?_)
      (fun op isOp box isResult => setting.settled_eq_result computes isOp isResult) isOp isResult
    · rw [setting.settled_of_not_result fun other isOther =>
          ne_some_of_computesFrom otherComputes isOther isStart,
        setting.settled_of_not_result fun other isOther =>
          ne_some_of_computesFrom computes isOther isStart]
    · obtain ⟨other, isOther, agrees⟩ := forth op isOp
      rw [setting.settled_eq_result otherComputes isOther (agrees.result.trans isResult),
        setting.result_of_agrees agrees]
  · have notMade : ∀ op ∈ ops, op.result ≠ some box :=
      fun op isOp isResult => made ⟨op, isOp, isResult⟩
    rw [setting.settled_of_not_result notMade, setting.settled_of_not_result]
    intro other isOther
    obtain ⟨op, isOp, agrees⟩ := back other isOther
    rw [agrees.result]
    exact notMade op isOp

end

/-! ## Defined iterations -/

theorem traps_eq_false_of_fails (failing : setting.fails op environment)
    (other : Box → Const) : setting.traps op other = false := by
  have isGuard : op.opcode.isGuard = true := (Bool.and_eq_true_iff.mp failing).1
  refine Bool.eq_false_iff.mpr fun isTrap => ?_
  have isDivision := (Bool.and_eq_true_iff.mp isTrap).1
  rw [Opcode.isGuard_of_isDivision isDivision] at isGuard
  cases isGuard

/-- An iteration is defined just when a guard that fails stands in front of each division by
zero. -/
theorem isDefined_iff (computes : ComputesFrom defined ops) :
    setting.isDefined ops environment = true ↔
      ∀ (place : Nat) (op : Operation), ops[place]? = some op →
        setting.traps op (setting.settled ops environment) →
        ∃ (earlier : Nat) (guard : Operation), earlier < place ∧ ops[earlier]? = some guard ∧
          setting.fails guard (setting.settled ops environment) := by
  induction ops generalizing defined environment with
  | nil => simp [isDefined]
  | cons head rest ih =>
    have sameOperands : setting.operands head (setting.settled (head :: rest) environment) =
        setting.operands head environment := setting.operands_settled computes
    have sameFails : setting.fails head (setting.settled (head :: rest) environment) =
        setting.fails head environment := by
      unfold fails
      rw [sameOperands]
    have sameTraps : setting.traps head (setting.settled (head :: rest) environment) =
        setting.traps head environment := by
      unfold traps
      rw [sameOperands]
    rw [isDefined]
    cases failing : setting.fails head environment with
    | true =>
      rw [if_pos rfl]
      refine ⟨fun _ place op found isTrap => ?_, fun _ => rfl⟩
      cases place with
      | zero =>
        cases found
        rw [setting.traps_eq_false_of_fails failing] at isTrap
        cases isTrap
      | succ place => exact ⟨0, head, Nat.succ_pos place, rfl, sameFails.trans failing⟩
    | false =>
      rw [if_neg Bool.false_ne_true, Bool.and_eq_true_iff, Bool.not_eq_true', ih computes.tail]
      constructor
      · rintro ⟨safe, later⟩ place op found isTrap
        cases place with
        | zero =>
          cases found
          rw [sameTraps, safe] at isTrap
          cases isTrap
        | succ place =>
          obtain ⟨earlier, guard, before, isGuard, fails⟩ := later place op found isTrap
          exact ⟨earlier + 1, guard, Nat.succ_lt_succ before, isGuard, fails⟩
      · intro each
        constructor
        · refine Bool.eq_false_iff.mpr fun isTrap => ?_
          obtain ⟨_, _, before, _⟩ := each 0 head rfl (sameTraps.trans isTrap)
          exact absurd before (Nat.not_lt_zero _)
        intro place op found isTrap
        obtain ⟨earlier, guard, before, isGuard, fails⟩ := each (place + 1) op found isTrap
        cases earlier with
        | zero =>
          cases isGuard
          rw [sameFails, failing] at fails
          cases fails
        | succ earlier =>
          exact ⟨earlier, guard, Nat.lt_of_succ_lt_succ before, isGuard, fails⟩

end Setting

end LinearTrace
