import LinearTrace.Opcode

/-!
# Traits of operation codes

The questions the optimizer asks about an operation code: whether it checks,
reads, writes or calls, what kind of box it defines, what its vector form is,
and which comparison negates it or reads its operands the other way round.
-/

namespace LinearTrace

/-- The static properties of an operation code. -/
structure Traits where
  guard : Bool := false
  /-- Has no effect of its own; may be dropped when unused. -/
  noSideEffect : Bool := false
  /-- The result depends on the operands alone. -/
  pure : Bool := false
  array : Bool := false
  load : Bool := false
  store : Bool := false
  /-- The index operand counts bytes instead of items. -/
  byteIndexed : Bool := false
  final : Bool := false
  call : Bool := false
  /-- Gives a truth value for two operands. -/
  comparison : Bool := false
  vector : Bool := false
  deriving DecidableEq, Inhabited, Repr

/-- The traits as a bit set, the first trait in the lowest bit. -/
def Traits.bits (traits : Traits) : Nat :=
  [traits.guard, traits.noSideEffect, traits.pure, traits.array, traits.load, traits.store,
    traits.byteIndexed, traits.final, traits.call, traits.comparison, traits.vector].foldr
    (fun flag rest => 2 * rest + flag.toNat) 0

/-- What kind of box an operation defines. -/
inductive ResultClass where
  | void
  | int
  | float
  | ref
  /-- An item of the operation's array descriptor. -/
  | fromDescriptor
  /-- Given with the operation. -/
  | explicit
  deriving DecidableEq, Inhabited, Repr

def ResultClass.name : ResultClass → String
  | .void => "Void"
  | .int => "Int"
  | .float => "Float"
  | .ref => "Ref"
  | .fromDescriptor => "FromDescr"
  | .explicit => "Explicit"

namespace Opcode

def traits : Opcode → Traits
  | .label | .debugMergePoint | .recordExactClass | .arrayLength | .new | .newWithVtable =>
    { noSideEffect := true }
  | .jump | .finish => { final := true }
  | .intAdd | .intSub | .intMul | .intAnd | .intOr | .intXor | .intLeftShift | .intRightShift
  | .uintRightShift | .intFloorDiv | .uintFloorDiv | .intMod | .intNeg | .intInvert
  | .intSignExtend | .intIsTrue | .intIsZero
  | .floatAdd | .floatSub | .floatMul | .floatTrueDiv | .floatNeg | .floatAbs
  | .castFloatToInt | .castIntToFloat | .castFloatToSingle | .castSingleToFloat
  | .castPtrToInt | .castIntToPtr | .sameAs =>
    { pure := true, noSideEffect := true }
  | .intLt | .intLe | .intEq | .intNe | .intGt | .intGe | .uintLt | .uintLe | .uintGt | .uintGe
  | .floatLt | .floatLe | .floatEq | .floatNe | .floatGt | .floatGe
  | .ptrEq | .ptrNe | .instancePtrEq | .instancePtrNe =>
    { pure := true, noSideEffect := true, comparison := true }
  | .getArrayItemGc | .getArrayItemRaw => { noSideEffect := true, array := true, load := true }
  | .rawLoad => { noSideEffect := true, array := true, load := true, byteIndexed := true }
  | .setArrayItemGc | .setArrayItemRaw => { array := true, store := true }
  | .rawStore => { array := true, store := true, byteIndexed := true }
  | .call | .callLoopInvariant | .condCall => { call := true }
  | .callPure => { call := true, noSideEffect := true }
  | .guardTrue | .guardFalse | .guardValue | .guardClass | .guardNonnull | .guardIsNull
  | .guardNonnullClass | .guardIsObject | .guardGcType | .guardSubclass | .guardNoException
  | .guardNotInvalidated | .guardFutureCondition | .guardEarlyExit => { guard := true }
  | .vecIntAdd | .vecIntSub | .vecIntMul | .vecIntSignExtend | .vecFloatAdd | .vecFloatSub
  | .vecFloatMul | .vecFloatEq | .vecCastFloatToSingle | .vecCastSingleToFloat
  | .vecCastFloatToInt | .vecCastIntToFloat | .vecIntPack | .vecIntUnpack | .vecIntExpand
  | .vecFloatPack | .vecFloatUnpack | .vecFloatExpand | .vecBox =>
    { pure := true, noSideEffect := true, vector := true }
  | .vecGetArrayItemRaw => { noSideEffect := true, array := true, load := true, vector := true }
  | .vecRawLoad =>
    { noSideEffect := true, array := true, load := true, byteIndexed := true, vector := true }
  | .vecSetArrayItemRaw => { array := true, store := true, vector := true }
  | .vecRawStore => { array := true, store := true, byteIndexed := true, vector := true }

def isGuard (opcode : Opcode) : Bool :=
  opcode.traits.guard

def isPure (opcode : Opcode) : Bool :=
  opcode.traits.pure

def isArrayAccess (opcode : Opcode) : Bool :=
  opcode.traits.array

def isLoad (opcode : Opcode) : Bool :=
  opcode.traits.load

def isFinal (opcode : Opcode) : Bool :=
  opcode.traits.final

def isComparison (opcode : Opcode) : Bool :=
  opcode.traits.comparison

def isVector (opcode : Opcode) : Bool :=
  opcode.traits.vector

/-- Writes memory, calls out, or must for another reason stay between its guards. -/
def hasSideEffect (opcode : Opcode) : Bool :=
  !opcode.traits.noSideEffect && !opcode.isGuard && !opcode.isFinal

/-- Array access through an address that the collector does not manage. -/
def isRawAccess : Opcode → Bool
  | .getArrayItemRaw | .setArrayItemRaw | .rawLoad | .rawStore
  | .vecGetArrayItemRaw | .vecSetArrayItemRaw | .vecRawLoad | .vecRawStore => true
  | _ => false

def isDebug : Opcode → Bool
  | .debugMergePoint => true
  | _ => false

def resultClass : Opcode → ResultClass
  | .label | .jump | .finish | .debugMergePoint | .setArrayItemGc | .setArrayItemRaw
  | .rawStore | .condCall | .recordExactClass | .vecSetArrayItemRaw | .vecRawStore
  | .guardTrue | .guardFalse | .guardValue | .guardClass | .guardNonnull | .guardIsNull
  | .guardNonnullClass | .guardIsObject | .guardGcType | .guardSubclass | .guardNoException
  | .guardNotInvalidated | .guardFutureCondition | .guardEarlyExit => .void
  | .intAdd | .intSub | .intMul | .intAnd | .intOr | .intXor | .intLeftShift | .intRightShift
  | .uintRightShift | .intFloorDiv | .uintFloorDiv | .intMod | .intNeg | .intInvert
  | .intSignExtend | .intIsTrue | .intIsZero | .intLt | .intLe | .intEq | .intNe | .intGt
  | .intGe | .uintLt | .uintLe | .uintGt | .uintGe | .floatLt | .floatLe | .floatEq
  | .floatNe | .floatGt | .floatGe | .castFloatToInt | .castFloatToSingle
  | .castPtrToInt | .ptrEq | .ptrNe | .instancePtrEq | .instancePtrNe | .arrayLength => .int
  | .floatAdd | .floatSub | .floatMul | .floatTrueDiv | .floatNeg | .floatAbs
  | .castIntToFloat | .castSingleToFloat => .float
  | .castIntToPtr | .new | .newWithVtable => .ref
  | .getArrayItemGc | .getArrayItemRaw | .rawLoad => .fromDescriptor
  | .sameAs | .call | .callPure | .callLoopInvariant
  | .vecIntAdd | .vecIntSub | .vecIntMul | .vecIntSignExtend | .vecFloatAdd | .vecFloatSub
  | .vecFloatMul | .vecFloatEq | .vecGetArrayItemRaw | .vecRawLoad
  | .vecCastFloatToSingle | .vecCastSingleToFloat | .vecCastFloatToInt
  | .vecCastIntToFloat | .vecIntPack | .vecIntUnpack | .vecIntExpand | .vecFloatPack
  | .vecFloatUnpack | .vecFloatExpand | .vecBox => .explicit

def vectorForm? : Opcode → Option Opcode
  | .intAdd => some .vecIntAdd
  | .intSub => some .vecIntSub
  | .intMul => some .vecIntMul
  | .intSignExtend => some .vecIntSignExtend
  | .floatAdd => some .vecFloatAdd
  | .floatSub => some .vecFloatSub
  | .floatMul => some .vecFloatMul
  | .floatEq => some .vecFloatEq
  | .getArrayItemRaw => some .vecGetArrayItemRaw
  | .rawLoad => some .vecRawLoad
  | .setArrayItemRaw => some .vecSetArrayItemRaw
  | .rawStore => some .vecRawStore
  | .castFloatToSingle => some .vecCastFloatToSingle
  | .castSingleToFloat => some .vecCastSingleToFloat
  | .castFloatToInt => some .vecCastFloatToInt
  | .castIntToFloat => some .vecCastIntToFloat
  | _ => none

/-- The comparison with the opposite truth value on the same operands. Ordered float
comparisons have none, since every one of them fails on a not-a-number operand. -/
def inverse? : Opcode → Option Opcode
  | .intEq => some .intNe
  | .intNe => some .intEq
  | .intLt => some .intGe
  | .intGe => some .intLt
  | .intGt => some .intLe
  | .intLe => some .intGt
  | .uintLt => some .uintGe
  | .uintGe => some .uintLt
  | .uintGt => some .uintLe
  | .uintLe => some .uintGt
  | .floatEq => some .floatNe
  | .floatNe => some .floatEq
  | .ptrEq => some .ptrNe
  | .ptrNe => some .ptrEq
  | .instancePtrEq => some .instancePtrNe
  | .instancePtrNe => some .instancePtrEq
  | _ => none

/-- The comparison with the same truth value on swapped operands. -/
def reflex? : Opcode → Option Opcode
  | .intEq => some .intEq
  | .intNe => some .intNe
  | .intLt => some .intGt
  | .intGt => some .intLt
  | .intLe => some .intGe
  | .intGe => some .intLe
  | .uintLt => some .uintGt
  | .uintGt => some .uintLt
  | .uintLe => some .uintGe
  | .uintGe => some .uintLe
  | .floatEq => some .floatEq
  | .floatNe => some .floatNe
  | .floatLt => some .floatGt
  | .floatGt => some .floatLt
  | .floatLe => some .floatGe
  | .floatGe => some .floatLe
  | .ptrEq => some .ptrEq
  | .ptrNe => some .ptrNe
  | .instancePtrEq => some .instancePtrEq
  | .instancePtrNe => some .instancePtrNe
  | _ => none

/-- The signed comparison that agrees with an unsigned one on nonnegative operands. -/
def signedForm? : Opcode → Option Opcode
  | .uintLt => some .intLt
  | .uintLe => some .intLe
  | .uintGt => some .intGt
  | .uintGe => some .intGe
  | _ => none

end Opcode

end LinearTrace
