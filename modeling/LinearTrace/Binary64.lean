/-!
# Double-precision constants

A float constant is held by its 64 bits, so that signed zeros and the payloads
of not-a-number patterns stay apart. Two relations compare them: equality of
bits, which is equality in Lean, and the numeric comparisons, for which
`0.0 = -0.0` and nothing equals a not-a-number pattern.
-/

namespace LinearTrace

/-- A double-precision number by its bit pattern. -/
structure Binary64 where
  bits : UInt64
  deriving DecidableEq, Hashable, Inhabited, Repr

namespace Binary64

def exponentField (x : Binary64) : Nat :=
  (x.bits >>> 52 &&& 0x7ff).toNat

def fractionField (x : Binary64) : Nat :=
  (x.bits &&& 0xfffffffffffff).toNat

def isNegative (x : Binary64) : Bool :=
  x.bits >>> 63 == 1

def isNaN (x : Binary64) : Bool :=
  x.exponentField == 0x7ff && x.fractionField != 0

def isFinite (x : Binary64) : Bool :=
  x.exponentField != 0x7ff

/-- The pattern stands for a number of full precision. -/
def isNormal (x : Binary64) : Bool :=
  x.exponentField != 0 && x.isFinite

def toFloat (x : Binary64) : Float :=
  Float.ofBits x.bits

/-- The pattern of a runtime float that is a number. -/
def ofFloat (x : Float) : Binary64 :=
  ⟨x.toBits⟩

/-- A not-a-number pattern with its quiet bit set. -/
def quieted (x : Binary64) : Binary64 :=
  ⟨x.bits ||| 0x8000000000000⟩

/-- The pattern that an invalid operation produces. -/
def invalid : Binary64 :=
  ⟨0xfff8000000000000⟩

def one : Binary64 :=
  ⟨0x3ff0000000000000⟩

def minusOne : Binary64 :=
  ⟨0xbff0000000000000⟩

/-- Arithmetic on patterns: a not-a-number operand is passed on quieted, the left
one first, and an operation without a numeric result gives `invalid`. -/
def arithmetic (operation : Float → Float → Float) (left right : Binary64) : Binary64 :=
  if left.isNaN then left.quieted
  else if right.isNaN then right.quieted
  else
    let result := operation left.toFloat right.toFloat
    if result.isNaN then invalid else ofFloat result

def add (left right : Binary64) : Binary64 :=
  arithmetic (· + ·) left right

def sub (left right : Binary64) : Binary64 :=
  arithmetic (· - ·) left right

def mul (left right : Binary64) : Binary64 :=
  arithmetic (· * ·) left right

def div (left right : Binary64) : Binary64 :=
  arithmetic (· / ·) left right

def neg (x : Binary64) : Binary64 :=
  ⟨x.bits ^^^ 0x8000000000000000⟩

def abs (x : Binary64) : Binary64 :=
  ⟨x.bits &&& 0x7fffffffffffffff⟩

def numericEq (left right : Binary64) : Bool :=
  left.toFloat == right.toFloat

def numericLt (left right : Binary64) : Bool :=
  decide (left.toFloat < right.toFloat)

def numericLe (left right : Binary64) : Bool :=
  decide (left.toFloat ≤ right.toFloat)

def isZero (x : Binary64) : Bool :=
  x.abs.bits == 0

/-- The nearest double of a word. -/
def ofWord (word : Int64) : Binary64 :=
  ofFloat word.toFloat

/-- The word that the number truncates to, when there is one. -/
def truncate? (x : Binary64) : Option Int64 :=
  if x.isFinite && decide (-9223372036854775808.0 ≤ x.toFloat)
      && decide (x.toFloat < 9223372036854775808.0) then
    some x.toFloat.toInt64
  else
    none

/-- The 32 bits of the nearest single-precision number. Of a not-a-number pattern the
sign and the leading payload bits are kept, quieted. -/
def toSingleBits (x : Binary64) : UInt32 :=
  if x.isNaN then
    let sign := (x.bits >>> 32).toUInt32 &&& 0x80000000
    let payload := (x.bits >>> 29).toUInt32 &&& 0x7fffff
    sign ||| payload ||| (0x7fc00000 : UInt32)
  else
    x.toFloat.toFloat32.toBits

/-- The double that a single-precision pattern stands for. Of a not-a-number pattern
the sign and the payload are kept, quieted. -/
def ofSingleBits (bits : UInt32) : Binary64 :=
  let wide := bits.toUInt64
  if bits >>> 23 &&& 0xff == 0xff && bits &&& 0x7fffff != 0 then
    let sign := (wide >>> 31) <<< 63
    let payload := (wide &&& 0x7fffff) <<< 29
    ⟨sign ||| payload ||| (0x7ff8000000000000 : UInt64)⟩
  else
    ofFloat (Float32.ofBits bits).toFloat

/-- The number is `2 ^ k` or `-2 ^ k` and normal; a subnormal power is left out because
its reciprocal overflows. -/
def isNormalPowerOfTwo (x : Binary64) : Bool :=
  x.isNormal && x.fractionField == 0

end Binary64

end LinearTrace
