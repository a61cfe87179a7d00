import Mathlib.Algebra.Group.Nat.Defs
import LinearTrace.Lowering

/-!
# What the lanes of vectors hold

Lanes hold abstract values.  Unpacking selects a range of lanes, spreading repeats a scalar,
packing puts lanes into a vector, a change of width keeps what lanes hold, and the vector form of
an operation computes the operation in every lane.  A scalar is a vector of which lane zero alone
is set, so every box holds lanes.
-/

namespace LinearTrace

variable {α : Type}

/-- What a vector operation does to lanes. -/
inductive LaneAction where
  /-- Take a range of lanes out of a vector. -/
  | select
  /-- Repeat a scalar in every lane. -/
  | spread
  /-- Set no lane. -/
  | clear
  /-- Put a range of lanes into a vector. -/
  | insert
  /-- Change the width of the lanes. -/
  | resize
  /-- Compute an operation in every lane. -/
  | compute (scalar : Opcode)
  /-- Compute an operation in the lanes that start at a given one. -/
  | computeFrom (scalar : Opcode)
  deriving DecidableEq

/-- The action computes something and does not only move lanes. -/
def LaneAction.isComputing : LaneAction → Bool
  | .compute _ | .computeFrom _ => true
  | _ => false

namespace Opcode

/-- The action of a vector operation that only works on lanes. -/
def laneAction? : Opcode → Option LaneAction
  | .vecIntUnpack | .vecFloatUnpack => some .select
  | .vecIntExpand | .vecFloatExpand => some .spread
  | .vecBox => some .clear
  | .vecIntPack | .vecFloatPack => some .insert
  | .vecIntSignExtend => some .resize
  | .vecIntAdd => some (.compute .intAdd)
  | .vecIntSub => some (.compute .intSub)
  | .vecIntMul => some (.compute .intMul)
  | .vecFloatAdd => some (.compute .floatAdd)
  | .vecFloatSub => some (.compute .floatSub)
  | .vecFloatMul => some (.compute .floatMul)
  | .vecFloatEq => some (.compute .floatEq)
  | .vecCastFloatToSingle => some (.compute .castFloatToSingle)
  | .vecCastSingleToFloat => some (.computeFrom .castSingleToFloat)
  | .vecCastFloatToInt => some (.compute .castFloatToInt)
  | .vecCastIntToFloat => some (.compute .castIntToFloat)
  | _ => none

/-- The operation computes something in every lane. -/
def isComputing (opcode : Opcode) : Bool :=
  opcode.laneAction?.any LaneAction.isComputing

/-- The number of operands of an operation that can be computed lane by lane. -/
def laneArity? : Opcode → Option Nat
  | .intAdd | .intSub | .intMul | .floatAdd | .floatSub | .floatMul | .floatEq => some 2
  | .castFloatToSingle | .castSingleToFloat | .castFloatToInt | .castIntToFloat => some 1
  | _ => none

/-- The signature of a vector form that computes an operation in every lane: all its operands are
vectors, and so is its result. Where it is told at which lane to start, it has one operand. -/
structure IsLaneForm (opcode : Opcode) (arity : Nat) (form : Opcode) (signature : VectorSignature) :
    Prop where
  result : signature.result.isSome
  fixedSize : signature.resultSizeOperand = none
  operands : ∀ position < arity, (signature.operandAt position).isSome
  action : signature.passesOffset = false ∧ form.laneAction? = some (.compute opcode) ∨
    signature.passesOffset = true ∧ arity = 1 ∧ form.laneAction? = some (.computeFrom opcode)

theorem vectorSignature?_of_laneArity? {opcode form : Opcode} {arity : Nat}
    (isArity : opcode.laneArity? = some arity) (isForm : opcode.vectorForm? = some form) :
    ∃ signature, form.vectorSignature? = some signature ∧
      IsLaneForm opcode arity form signature := by
  revert isForm isArity
  cases opcode <;> rintro ⟨⟩ ⟨⟩ <;> exact ⟨_, rfl, by decide, rfl, by decide, by decide⟩

end Opcode

/-- The number that a constant operand stands for. -/
def Value.amount : Value → Nat
  | .const (.int value) => value.toInt.toNat
  | _ => 0

theorem Value.amount_count {value : Nat} (fits : value < 2 ^ 63) :
    (Value.count value).amount = value := by
  change (Int64.ofNat value).toInt.toNat = value
  rw [Int64.toInt_ofNat_of_lt fits, Int.toNat_natCast]

abbrev LaneValues (α : Type) := Box → Nat → Option α

/-- How constants and scalar operations are read. -/
structure Arithmetic (α : Type) where
  literal : Const → α
  apply : Opcode → List α → α

namespace Arithmetic

variable (arithmetic : Arithmetic α)

/-- The value of an operand, given the values of the scalar boxes. -/
def value (scalars : Box → α) : Value → α
  | .box source => scalars source
  | .const literal => arithmetic.literal literal

/-- The value of the result of an operation is what the operation computes. -/
def Defines (scalars : Box → α) (op : Operation) : Prop :=
  ∀ box ∈ op.result, scalars box = arithmetic.apply op.opcode (op.args.map
    (arithmetic.value scalars))

/-- What a lane of an operand holds. -/
def lane (held : LaneValues α) : Value → Nat → Option α
  | .box source, position => held source position
  | .const literal, position => if position = 0 then some (arithmetic.literal literal) else none

/-- What the lanes of a result hold. -/
def outcome (held : LaneValues α) (opcode : Opcode) (args : List Value) (position : Nat) :
    Option α :=
  match opcode.laneAction?, args with
  | some .select, [vector, start, count] =>
    if position < count.amount then arithmetic.lane held vector (start.amount + position) else none
  | some .spread, [source, count] =>
    if position < count.amount then arithmetic.lane held source 0 else none
  | some .insert, [vector, source, start, count] =>
    if start.amount ≤ position ∧ position < start.amount + count.amount then
      arithmetic.lane held source (position - start.amount)
    else
      arithmetic.lane held vector position
  | some .resize, vector :: _ => arithmetic.lane held vector position
  | some (.compute scalar), args =>
    if position < (args.getLastD default).amount then
      (args.dropLast.mapM fun operand => arithmetic.lane held operand position).map
        (arithmetic.apply scalar)
    else none
  | some (.computeFrom scalar), [vector, start, count] =>
    if position < count.amount then
      (arithmetic.lane held vector (start.amount + position)).map fun operand =>
        arithmetic.apply scalar [operand]
    else none
  | _, _ => none

/-- What the boxes hold after an operation. -/
def after (held : LaneValues α) (op : Operation) : LaneValues α :=
  match op.result with
  | some box => fun other =>
    if other = box then arithmetic.outcome held op.opcode op.args else held other
  | none => held

/-- What the boxes hold after some operations. -/
def run (held : LaneValues α) (ops : List Operation) : LaneValues α :=
  ops.foldl arithmetic.after held

theorem run_append (held : LaneValues α) (first second : List Operation) :
    arithmetic.run held (first ++ second) = arithmetic.run (arithmetic.run held first) second :=
  List.foldl_append

theorem run_result (held : LaneValues α) (op : Operation) {box : Box}
    (isResult : op.result = some box) :
    arithmetic.run held [op] box = arithmetic.outcome held op.opcode op.args := by
  change arithmetic.after held op box = _
  unfold after
  rw [isResult]
  exact if_pos rfl

theorem run_other (held : LaneValues α) {op : Operation} {box other : Box}
    (isResult : op.result = some box) (differs : other ≠ box) :
    arithmetic.run held [op] other = held other := by
  change arithmetic.after held op other = _
  unfold after
  rw [isResult]
  exact if_neg differs

variable {arithmetic} {held : LaneValues α}

/-! ## The lanes of each kind of result -/

section

variable {opcode : Opcode} {start count position : Nat} {vector source : Value}

theorem outcome_select (isAction : opcode.laneAction? = some .select) (startFits : start < 2 ^ 63)
    (countFits : count < 2 ^ 63) (within : position < count) :
    arithmetic.outcome held opcode [vector, .count start, .count count] position =
      arithmetic.lane held vector (start + position) := by
  unfold outcome
  rw [isAction]
  dsimp only
  rw [Value.amount_count startFits, Value.amount_count countFits, if_pos within]

theorem outcome_spread (isAction : opcode.laneAction? = some .spread) (countFits : count < 2 ^ 63)
    (within : position < count) :
    arithmetic.outcome held opcode [source, .count count] position =
      arithmetic.lane held source 0 := by
  unfold outcome
  rw [isAction]
  dsimp only
  rw [Value.amount_count countFits, if_pos within]

theorem outcome_insert (isAction : opcode.laneAction? = some .insert) (startFits : start < 2 ^ 63)
    (countFits : count < 2 ^ 63) (position : Nat) :
    arithmetic.outcome held opcode [vector, source, .count start, .count count] position =
      if start ≤ position ∧ position < start + count then
        arithmetic.lane held source (position - start)
      else arithmetic.lane held vector position := by
  unfold outcome
  rw [isAction]
  dsimp only
  rw [Value.amount_count startFits, Value.amount_count countFits]

theorem outcome_resize (isAction : opcode.laneAction? = some .resize) (rest : List Value)
    (position : Nat) :
    arithmetic.outcome held opcode (vector :: rest) position =
      arithmetic.lane held vector position := by
  unfold outcome
  rw [isAction]

theorem outcome_compute {scalar : Opcode} {operands : List Value} {values : List α}
    (isAction : opcode.laneAction? = some (.compute scalar)) (countFits : count < 2 ^ 63)
    (within : position < count)
    (read : operands.mapM (fun operand => arithmetic.lane held operand position) = some values) :
    arithmetic.outcome held opcode (operands ++ [.count count]) position =
      some (arithmetic.apply scalar values) := by
  unfold outcome
  rw [isAction]
  dsimp only
  rw [List.getLastD_concat, List.dropLast_concat, Value.amount_count countFits, if_pos within, read]
  rfl

theorem outcome_computeFrom {scalar : Opcode} {operand : α}
    (isAction : opcode.laneAction? = some (.computeFrom scalar)) (startFits : start < 2 ^ 63)
    (countFits : count < 2 ^ 63) (within : position < count)
    (read : arithmetic.lane held vector (start + position) = some operand) :
    arithmetic.outcome held opcode [vector, .count start, .count count] position =
      some (arithmetic.apply scalar [operand]) := by
  unfold outcome
  rw [isAction]
  dsimp only
  rw [Value.amount_count startFits, Value.amount_count countFits, if_pos within, read]
  rfl

end

end Arithmetic

end LinearTrace
