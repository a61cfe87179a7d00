import LinearTrace.Facts

/-!
# Intervals of results

The interval of an operation's result, from the intervals of its operands.
-/

namespace LinearTrace

/-- The truth value of a condition of which one side may be decided. -/
def Interval.decided (isTrue isFalse : Bool) : Interval :=
  if isTrue then .truth true
  else if isFalse then .truth false
  else .boolean

/-- The interval of a signed comparison; `sameArgs` says that both operands are one value. -/
def Interval.compare (opcode : Opcode) (left right : Interval) (sameArgs : Bool) : Interval :=
  let equal := sameArgs || (left.isConstant && left == right)
  let apart := left.allLt right || left.allGt right
  match opcode with
  | .intLt => decided (left.allLt right) (left.allGe right || sameArgs)
  | .intLe => decided (left.allLe right || sameArgs) (left.allGt right)
  | .intGt => decided (left.allGt right) (left.allLe right || sameArgs)
  | .intGe => decided (left.allGe right || sameArgs) (left.allLt right)
  | .intEq => decided equal apart
  | .intNe => decided apart equal
  | _ => .boolean

namespace Facts

def argInterval (facts : Facts) (op : Operation) (position : Nat) : Except Fault Interval := do
  return facts.interval (← op.arg position)

def sameArgs (op : Operation) : Bool :=
  match op.args with
  | [left, right] => left == right
  | _ => false

def unaryInterval (facts : Facts) (op : Operation) (transfer : Interval → Interval) :
    Except Fault Interval := do
  return transfer (← facts.argInterval op 0)

def binaryInterval (facts : Facts) (op : Operation) (transfer : Interval → Interval → Interval) :
    Except Fault Interval := do
  return transfer (← facts.argInterval op 0) (← facts.argInterval op 1)

def resultInterval (facts : Facts) (op : Operation) : Except Fault Interval :=
  match op.opcode with
  | .intAdd => facts.binaryInterval op .add
  | .intSub =>
    if sameArgs op then .ok (.constant 0) else facts.binaryInterval op .sub
  | .intMul => facts.binaryInterval op .mul
  | .intAnd => facts.binaryInterval op .and
  | .intOr => facts.binaryInterval op .or
  | .intXor =>
    if sameArgs op then .ok (.constant 0) else facts.binaryInterval op .xor
  | .intLeftShift => facts.binaryInterval op .leftShift
  | .intRightShift => facts.binaryInterval op .rightShift
  | .uintRightShift => facts.binaryInterval op .uintRightShift
  | .intFloorDiv => facts.binaryInterval op .floorDiv
  | .intMod => facts.binaryInterval op .modulo
  | .intNeg => facts.unaryInterval op .neg
  | .intSignExtend => facts.binaryInterval op .signExtend
  | .intIsTrue => facts.unaryInterval op fun x => .decided x.excludesZero (x.isExactly 0)
  | .intIsZero => facts.unaryInterval op fun x => .decided (x.isExactly 0) x.excludesZero
  | .intLt | .intLe | .intGt | .intGe | .intEq | .intNe =>
    facts.binaryInterval op fun x y => .compare op.opcode x y (sameArgs op)
  | .uintLt | .uintLe | .uintGt | .uintGe =>
    facts.binaryInterval op fun x y =>
      match x.isNonnegative && y.isNonnegative, op.opcode.signedForm? with
      | true, some signed => .compare signed x y (sameArgs op)
      | _, _ => .boolean
  | .floatLt | .floatLe | .floatEq | .floatNe | .floatGt | .floatGe
  | .ptrEq | .ptrNe | .instancePtrEq | .instancePtrNe => .ok .boolean
  | .arrayLength => .ok .nonnegative
  | .getArrayItemGc | .getArrayItemRaw | .rawLoad =>
    match op.array? with
    | some array =>
      if array.itemType = .int ∧ array.isStruct = false then
        .ok (.ofItem array.itemSize array.signed)
      else
        .ok .unbounded
    | none => .ok .unbounded
  | _ => .ok .unbounded

end Facts

end LinearTrace
