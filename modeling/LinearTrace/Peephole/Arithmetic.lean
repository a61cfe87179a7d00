import LinearTrace.Peephole

/-!
# Simplifying arithmetic and comparisons

For each operation without an effect, what it may become, given the facts. The
rules only look; carrying out their verdict is one function at the end.
-/

namespace LinearTrace

/-- What a pure operation may become. -/
inductive Simplified where
  /-- The operation stays. With `reversible` its reverse forms become known. -/
  | keep (op : Operation) (reversible : Bool)
  | cheaper (op : Operation) (reversible : Bool)
  /-- The result equals a value, which counts as a reduction. -/
  | equals (result : Box) (value : Value)
  /-- The result merely names a value. -/
  | names (result : Box) (value : Value)
  | word (result : Box) (value : Int64)
  | nothing
  deriving Repr

namespace Simplified

def truth (result : Box) (value : Bool) : Simplified :=
  .word result (if value then 1 else 0)

end Simplified

namespace Facts

/-- A conjunction with zero is zero; one with a mask that covers the other operand is
that operand. -/
def simplifyAnd (facts : Facts) (op : Operation) (result : Box) : Except Fault Simplified := do
  let left ← op.arg 0
  let right ← op.arg 1
  let leftInterval := facts.interval left
  let rightInterval := facts.interval right
  let covers (mask operand : Interval) : Bool :=
    match mask.constant? with
    | some word =>
      word == -1 || (operand.isNonnegative && decide (operand.upper ≤ Word.lowOnes word))
    | none => false
  if leftInterval.isExactly 0 || rightInterval.isExactly 0 then return .word result 0
  else if covers rightInterval leftInterval then return .equals result left
  else if covers leftInterval rightInterval then return .equals result right
  else return .keep op true

/-- An operand of zero leaves the other operand. -/
def simplifyZeroOperand (facts : Facts) (op : Operation) (result : Box) :
    Except Fault Simplified := do
  let left ← op.arg 0
  let right ← op.arg 1
  if (facts.interval left).isExactly 0 then return .equals result right
  else if (facts.interval right).isExactly 0 then return .equals result left
  else return .keep op true

/-- `x - 0` is `x`, `0 - x` is a negation, `x - x` is zero. -/
def simplifySub (facts : Facts) (op : Operation) (result : Box) : Except Fault Simplified := do
  let left ← op.arg 0
  let right ← op.arg 1
  if (facts.interval right).isExactly 0 then return .equals result left
  else if (facts.interval left).isExactly 0 then
    return .cheaper (op.recode .intNeg [right]) true
  else if facts.resolve left = facts.resolve right then return .word result 0
  else return .keep op true

def shiftForFactor? (op : Operation) (factor : Interval) (other : Value) : Option Simplified := do
  let word ← factor.constant?
  if Word.isPowerOfTwo word then
    return .cheaper (op.recode .intLeftShift [other, .int (Word.exponent word)]) false
  else
    none

/-- A factor of one leaves the other operand, a factor of zero leaves zero, and a power
of two is shifted in. -/
def simplifyMul (facts : Facts) (op : Operation) (result : Box) : Except Fault Simplified := do
  let left ← op.arg 0
  let right ← op.arg 1
  let leftInterval := facts.interval left
  let rightInterval := facts.interval right
  if leftInterval.isExactly 1 then return .equals result right
  else if rightInterval.isExactly 1 then return .equals result left
  else if leftInterval.isExactly 0 || rightInterval.isExactly 0 then return .word result 0
  else
    match shiftForFactor? op leftInterval right, shiftForFactor? op rightInterval left with
    | some shift, _ => return shift
    | none, some shift => return shift
    | none, none => return .keep op true

/-- A divisor of one leaves the dividend, zero divided stays zero, and a nonnegative
dividend is shifted for a power of two. -/
def simplifyFloorDiv (facts : Facts) (op : Operation) (result : Box) :
    Except Fault Simplified := do
  let left ← op.arg 0
  let right ← op.arg 1
  let leftInterval := facts.interval left
  let rightInterval := facts.interval right
  if rightInterval.isExactly 1 then return .equals result left
  else if leftInterval.isExactly 0 && rightInterval.excludesZero then return .word result 0
  else
    match rightInterval.constant? with
    | some divisor =>
      if leftInterval.isNonnegative && decide (0 < divisor) && Word.isPowerOfTwo divisor then
        return .cheaper (op.recode .intRightShift [left, .int (Word.exponent divisor)]) false
      else
        return .keep op false
    | none => return .keep op false

def simplifyUintFloorDiv (facts : Facts) (op : Operation) (result : Box) :
    Except Fault Simplified := do
  if (facts.interval (← op.arg 1)).isExactly 1 then return .equals result (← op.arg 0)
  else return .keep op false

/-- A shift by zero leaves the operand, and a shift of zero leaves zero. -/
def simplifyShift (facts : Facts) (op : Operation) (result : Box) : Except Fault Simplified := do
  if (facts.interval (← op.arg 1)).isExactly 0 then return .equals result (← op.arg 0)
  else if (facts.interval (← op.arg 0)).isExactly 0 then return .word result 0
  else return .keep op false

/-- The truth of a truth value is that value. -/
def simplifyIsTrue (facts : Facts) (op : Operation) (result : Box) : Except Fault Simplified := do
  let operand ← op.arg 0
  if (facts.interval operand).isBoolean then return .equals result operand
  else return .keep op false

/-- A factor of `1.0` leaves the other operand, and `-1.0` negates it. -/
def simplifyFloatMul (facts : Facts) (op : Operation) (result : Box) :
    Except Fault Simplified := do
  let left ← op.arg 0
  let right ← op.arg 1
  let byFactor (factor other : Value) : Option Simplified := do
    let value ← facts.float? factor
    if value.numericEq .one then return .equals result other
    else if value.numericEq .minusOne then return .cheaper (op.recode .floatNeg [other]) true
    else none
  match byFactor left right, byFactor right left with
  | some simplified, _ => return simplified
  | none, some simplified => return simplified
  | none, none => return .keep op true

/-- Division by a power of two whose reciprocal is exact is a product. -/
def simplifyFloatDiv (facts : Facts) (op : Operation) : Except Fault Simplified := do
  match facts.float? (← op.arg 1) with
  | some divisor =>
    let reciprocal := Binary64.one.div divisor
    if divisor.isNormalPowerOfTwo && reciprocal.isNormalPowerOfTwo then
      return .cheaper (op.recode .floatMul [← op.arg 0, .const (.float reciprocal)]) true
    else
      return .keep op false
  | none => return .keep op false

/-- The truth of "is not null", or of "is null", for a reference. -/
def nullTest? (fact : PointerFact) (nonnull : Bool) : Option Bool :=
  if fact.isNonnull then some nonnull
  else if fact.isNull then some !nonnull
  else none

/-- References compare by nullness and identity, instances also by their classes. -/
def simplifyPointers (facts : Facts) (op : Operation) (result : Box) (negated ofInstances : Bool) :
    Except Fault Simplified := do
  let left := facts.resolve (← op.arg 0)
  let right := facts.resolve (← op.arg 1)
  let leftFact := facts.pointer left
  let rightFact := facts.pointer right
  let otherClass : Bool :=
    match leftFact.knownClass, rightFact.knownClass with
    | some leftClass, some rightClass => leftClass != rightClass
    | _, _ => false
  let decided : Option Bool :=
    if rightFact.isNull then nullTest? leftFact negated
    else if leftFact.isNull then nullTest? rightFact negated
    else if left = right then some !negated
    else if ofInstances && otherClass then some negated
    else none
  match decided with
  | some value => return .truth result value
  | none => return .keep op false

/-- The truth value of the negation of a comparison whose result is known and decided. -/
def decidedInverse? (facts : Facts) (result : Box) (inverse : Option Opcode) (args : List Value) :
    Option Simplified := do
  let interval := facts.interval (← facts.known.lookup (← inverse) args)
  if interval.isExactly 1 then return .truth result false
  else if interval.isExactly 0 then return .truth result true
  else none

/-- A comparison whose inverse, or whose form with swapped operands, is known. -/
def simplifyComparison? (facts : Facts) (op : Operation) : Option Simplified :=
  match op.result, op.args with
  | some result, [left, right] =>
    let left := facts.resolve left
    let right := facts.resolve right
    let reflex := op.opcode.reflex?
    decidedInverse? facts result op.opcode.inverse? [left, right]
      <|> (do return .names result (← facts.known.lookup (← reflex) [right, left]))
      <|> decidedInverse? facts result (reflex.bind Opcode.inverse?) [right, left]
  | _, _ => none

def simplifyResult (facts : Facts) (op : Operation) (result : Box) : Except Fault Simplified :=
  match op.opcode with
  | .intAnd => facts.simplifyAnd op result
  | .intOr | .intXor | .intAdd => facts.simplifyZeroOperand op result
  | .intSub => facts.simplifySub op result
  | .intMul => facts.simplifyMul op result
  | .intFloorDiv => facts.simplifyFloorDiv op result
  | .uintFloorDiv => facts.simplifyUintFloorDiv op result
  | .intLeftShift | .intRightShift | .uintRightShift => facts.simplifyShift op result
  | .intIsTrue => facts.simplifyIsTrue op result
  | .floatMul => facts.simplifyFloatMul op result
  | .ptrEq => facts.simplifyPointers op result false false
  | .ptrNe => facts.simplifyPointers op result true false
  | .instancePtrEq => facts.simplifyPointers op result false true
  | .instancePtrNe => facts.simplifyPointers op result true true
  | .sameAs => return .names result (← op.arg 0)
  | .floatAdd | .floatSub | .floatNeg | .castPtrToInt | .castIntToPtr => .ok (.keep op true)
  | _ => .ok (.keep op false)

def simplify (facts : Facts) (op : Operation) : Except Fault Simplified :=
  match op.opcode, op.result with
  | .floatTrueDiv, _ => facts.simplifyFloatDiv op
  | .sameAs, none => .ok .nothing
  | _, none => .ok (.keep op false)
  | _, some result => facts.simplifyResult op result

end Facts

namespace Peephole

def perform : Simplified → PeepholeM Unit
  | .keep op true => emitReversible op
  | .keep op false => emit op
  | .cheaper op reversible => do
      countReduced
      if reversible then emitReversible op else emit op
  | .equals result value => do
      updateFacts fun facts => facts.makeEqual result value
      countReduced
  | .names result value => updateFacts fun facts => facts.makeEqual result value
  | .word result value => updateFacts fun facts => facts.makeWord result value
  | .nothing => return

end Peephole

end LinearTrace
