import LinearTrace.Interval

/-!
# Operations on intervals

For each integer operation, an interval that contains its result whenever the
operands lie in the given intervals. Operations wrap, so where a result could
overflow the answer is the unbounded interval.
-/

namespace LinearTrace.Interval

/-- The interval with the given ends, unbounded when an end overflowed. -/
def ofEnds? (lower upper : Option Int64) : Interval :=
  match lower, upper with
  | some lower, some upper => ⟨lower, upper⟩
  | _, _ => unbounded

def add (left right : Interval) : Interval :=
  ofEnds? (Word.add? left.lower right.lower) (Word.add? left.upper right.upper)

def sub (left right : Interval) : Interval :=
  ofEnds? (Word.sub? left.lower right.upper) (Word.sub? left.upper right.lower)

/-- Products: the extremes are among the four products of ends. -/
def mul (left right : Interval) : Interval :=
  match Word.mul? left.lower right.lower, Word.mul? left.lower right.upper,
    Word.mul? left.upper right.lower, Word.mul? left.upper right.upper with
  | some a, some b, some c, some d => ⟨min (min a b) (min c d), max (max a b) (max c d)⟩
  | _, _, _, _ => unbounded

def neg (interval : Interval) : Interval :=
  if interval.lower = Int64.minValue then unbounded
  else ⟨-interval.upper, -interval.lower⟩

/-- Bitwise conjunctions: a nonnegative operand bounds the result. -/
def and (left right : Interval) : Interval :=
  match left.isNonnegative, right.isNonnegative with
  | true, true => ⟨0, min left.upper right.upper⟩
  | true, false => ⟨0, left.upper⟩
  | false, true => ⟨0, right.upper⟩
  | false, false => unbounded

/-- Bitwise disjunctions of nonnegative words. -/
def or (left right : Interval) : Interval :=
  if left.isNonnegative && right.isNonnegative then
    ⟨max left.lower right.lower, Word.fillLowBits (max left.upper right.upper)⟩
  else
    unbounded

/-- Bitwise exclusive disjunctions of nonnegative words. -/
def xor (left right : Interval) : Interval :=
  if left.isNonnegative && right.isNonnegative then
    ⟨0, Word.fillLowBits (max left.upper right.upper)⟩
  else
    unbounded

/-- Left shifts by a constant that lose no bit. -/
def leftShift (interval amount : Interval) : Interval :=
  match amount.constant? with
  | some count =>
    if 0 ≤ count ∧ count ≤ 63 then
      let lower := interval.lower <<< count
      let upper := interval.upper <<< count
      if lower >>> count = interval.lower ∧ upper >>> count = interval.upper then
        ⟨lower, upper⟩
      else
        unbounded
    else
      unbounded
  | none => unbounded

def rightShift (interval amount : Interval) : Interval :=
  if amount.lower < 0 ∨ 63 < amount.upper then unbounded
  else
    ⟨min (interval.lower >>> amount.lower) (interval.lower >>> amount.upper),
      max (interval.upper >>> amount.lower) (interval.upper >>> amount.upper)⟩

def uintRightShift (interval amount : Interval) : Interval :=
  if interval.isNonnegative then interval.rightShift amount
  else
    match amount.constant? with
    | some count =>
      if 1 ≤ count ∧ count ≤ 63 then
        ⟨0, (((-1 : Int64).toUInt64) >>> count.toUInt64).toInt64⟩
      else
        unbounded
    | none => unbounded

/-- Truncating divisions by a positive constant. -/
def floorDiv (interval divisor : Interval) : Interval :=
  match divisor.constant? with
  | some count =>
    if 0 < count then ⟨interval.lower / count, interval.upper / count⟩ else unbounded
  | none => unbounded

/-- Truncating remainders by a positive constant. -/
def modulo (interval divisor : Interval) : Interval :=
  match divisor.constant? with
  | some count =>
    if 0 < count then
      if interval.isNonnegative then ⟨0, min interval.upper (count - 1)⟩
      else ⟨-(count - 1), count - 1⟩
    else
      unbounded
  | none => unbounded

/-- Sign extensions from a constant number of bytes. -/
def signExtend (interval bytes : Interval) : Interval :=
  match bytes.constant? with
  | some count =>
    if 1 ≤ count ∧ count ≤ 7 then
      let extended := ofItem count.toNatClampNeg true
      if interval.isWithin extended then interval else extended
    else
      unbounded
  | none => unbounded

end LinearTrace.Interval
