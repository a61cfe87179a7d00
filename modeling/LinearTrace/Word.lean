/-!
# Signed machine words

Trace integers are signed 64-bit words. Plain arithmetic on them wraps; the
operations here are the ones that refuse to wrap, together with the few bit
patterns that the simplifier asks about.
-/

namespace LinearTrace.Word

/-- The word with a given integer value, when the value fits a word. -/
def ofInt? (value : Int) : Option Int64 :=
  if Int64.minValue.toInt ≤ value ∧ value ≤ Int64.maxValue.toInt then
    some (Int64.ofInt value)
  else
    none

/-- The sum, unless it overflows. -/
def add? (left right : Int64) : Option Int64 :=
  ofInt? (left.toInt + right.toInt)

def sub? (left right : Int64) : Option Int64 :=
  ofInt? (left.toInt - right.toInt)

def mul? (left right : Int64) : Option Int64 :=
  ofInt? (left.toInt * right.toInt)

def neg? (word : Int64) : Option Int64 :=
  ofInt? (-word.toInt)

/-- The absolute value, unless it overflows: the least word has none. -/
def abs? (word : Int64) : Option Int64 :=
  ofInt? word.toInt.natAbs

/-- Exactly one bit of the word is set. -/
def isPowerOfTwo (word : Int64) : Bool :=
  word != 0 && word &&& (word - 1) == 0

/-- The position of the highest set bit, which for a power of two is its exponent. -/
def exponent (word : Int64) : Int64 :=
  Int64.ofNat (Nat.log2 word.toUInt64.toNat)

/-- The largest word `2 ^ k - 1` whose bits are all set in `mask`. -/
def lowOnes (mask : Int64) : Int64 :=
  mask &&& ~~~(mask + 1)

/-- The smallest `2 ^ k - 1` that is at least `word`; zero for a negative word. -/
def fillLowBits (word : Int64) : Int64 :=
  if word ≤ 0 then 0
  else Int64.ofNat (Nat.pow 2 (Nat.log2 word.toNatClampNeg + 1) - 1)

end LinearTrace.Word
