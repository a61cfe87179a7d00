import LinearTrace.Opcode.Traits
import LinearTrace.Value

/-!
# Evaluating operations

The value of a pure operation on constants. Word arithmetic wraps; an operation
is undefined on a zero divisor, a shift amount outside the word, or a float that
no word can hold.
-/

namespace LinearTrace

def Const.truth (condition : Bool) : Const :=
  .int (if condition then 1 else 0)

namespace Opcode

def wordAt (args : List Const) (position : Nat) : Option Int64 :=
  (args[position]?).bind Const.int?

def floatAt (args : List Const) (position : Nat) : Option Binary64 :=
  (args[position]?).bind Const.float?

def onWord (args : List Const) (function : Int64 → Option Const) : Option Const := do
  function (← wordAt args 0)

def onWords (args : List Const) (function : Int64 → Int64 → Option Const) : Option Const := do
  function (← wordAt args 0) (← wordAt args 1)

def onFloat (args : List Const) (function : Binary64 → Option Const) : Option Const := do
  function (← floatAt args 0)

def onFloats (args : List Const) (function : Binary64 → Binary64 → Option Const) :
    Option Const := do
  function (← floatAt args 0) (← floatAt args 1)

/-- A function of the bits of the first two operands. -/
def onBits (args : List Const) (function : UInt64 → UInt64 → Option Const) : Option Const := do
  function (← args[0]?).bits (← args[1]?).bits

/-- A shift, defined for amounts from 0 to 63. -/
def shifted (amount : Int64) (result : Int64) : Option Const :=
  if 0 ≤ amount ∧ amount < 64 then some (.int result) else none

/-- Sign extension of the lowest bytes of a word. -/
def signExtended (word bytes : Int64) : Option Const :=
  if 1 ≤ bytes ∧ bytes ≤ 7 then
    let unused := 64 - 8 * bytes
    some (.int ((word <<< unused) >>> unused))
  else if bytes = 8 then
    some (.int word)
  else
    none

/-- The value of an operation on constant operands, when it is defined. -/
def evaluate (opcode : Opcode) (args : List Const) : Option Const :=
  match opcode with
  | .intAdd => onWords args fun x y => some (.int (x + y))
  | .intSub => onWords args fun x y => some (.int (x - y))
  | .intMul => onWords args fun x y => some (.int (x * y))
  | .intAnd => onWords args fun x y => some (.int (x &&& y))
  | .intOr => onWords args fun x y => some (.int (x ||| y))
  | .intXor => onWords args fun x y => some (.int (x ^^^ y))
  | .intLeftShift => onWords args fun x y => shifted y (x <<< y)
  | .intRightShift => onWords args fun x y => shifted y (x >>> y)
  | .uintRightShift => onWords args fun x y => shifted y (x.toUInt64 >>> y.toUInt64).toInt64
  | .intFloorDiv => onWords args fun x y => if y = 0 then none else some (.int (x / y))
  | .uintFloorDiv => onWords args fun x y =>
    if y = 0 then none else some (.int (x.toUInt64 / y.toUInt64).toInt64)
  | .intMod => onWords args fun x y => if y = 0 then none else some (.int (x % y))
  | .intNeg => onWord args fun x => some (.int (-x))
  | .intInvert => onWord args fun x => some (.int (~~~x))
  | .intSignExtend => onWords args signExtended
  | .intIsTrue => onWord args fun x => some (.truth (x != 0))
  | .intIsZero => onWord args fun x => some (.truth (x == 0))
  | .intLt => onWords args fun x y => some (.truth (decide (x < y)))
  | .intLe => onWords args fun x y => some (.truth (decide (x ≤ y)))
  | .intEq => onWords args fun x y => some (.truth (x == y))
  | .intNe => onWords args fun x y => some (.truth (x != y))
  | .intGt => onWords args fun x y => some (.truth (decide (y < x)))
  | .intGe => onWords args fun x y => some (.truth (decide (y ≤ x)))
  | .uintLt => onWords args fun x y => some (.truth (decide (x.toUInt64 < y.toUInt64)))
  | .uintLe => onWords args fun x y => some (.truth (decide (x.toUInt64 ≤ y.toUInt64)))
  | .uintGt => onWords args fun x y => some (.truth (decide (y.toUInt64 < x.toUInt64)))
  | .uintGe => onWords args fun x y => some (.truth (decide (y.toUInt64 ≤ x.toUInt64)))
  | .floatAdd => onFloats args fun x y => some (.float (x.add y))
  | .floatSub => onFloats args fun x y => some (.float (x.sub y))
  | .floatMul => onFloats args fun x y => some (.float (x.mul y))
  | .floatTrueDiv => onFloats args fun x y => if y.isZero then none else some (.float (x.div y))
  | .floatNeg => onFloat args fun x => some (.float x.neg)
  | .floatAbs => onFloat args fun x => some (.float x.abs)
  | .floatLt => onFloats args fun x y => some (.truth (x.numericLt y))
  | .floatLe => onFloats args fun x y => some (.truth (x.numericLe y))
  | .floatEq => onFloats args fun x y => some (.truth (x.numericEq y))
  | .floatNe => onFloats args fun x y => some (.truth !(x.numericEq y))
  | .floatGt => onFloats args fun x y => some (.truth (y.numericLt x))
  | .floatGe => onFloats args fun x y => some (.truth (y.numericLe x))
  | .castFloatToInt => onFloat args fun x => x.truncate?.map .int
  | .castIntToFloat => onWord args fun x => some (.float (.ofWord x))
  | .castFloatToSingle => onFloat args fun x => some (.int x.toSingleBits.toUInt64.toInt64)
  | .castSingleToFloat => onWord args fun x => some (.float (.ofSingleBits x.toUInt64.toUInt32))
  | .castPtrToInt => do
      let address ← (← args[0]?).ref?
      return .int address.toInt64
  | .castIntToPtr => onWord args fun x => some (.ref x.toUInt64)
  | .ptrEq | .instancePtrEq => onBits args fun x y => some (.truth (x == y))
  | .ptrNe | .instancePtrNe => onBits args fun x y => some (.truth (x != y))
  | .sameAs => args[0]?
  | _ => none

end Opcode

end LinearTrace
