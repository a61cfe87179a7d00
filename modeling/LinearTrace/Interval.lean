import LinearTrace.Word

/-!
# Intervals of words

A closed interval of signed words that is known to contain the value of an
integer box. This module has the intervals with a name and the questions about
intervals; how operations act on them and how they are narrowed is elsewhere.
-/

namespace LinearTrace

/-- A closed interval of signed words. -/
structure Interval where
  lower : Int64
  upper : Int64
  deriving DecidableEq, Hashable, Repr

namespace Interval

def unbounded : Interval :=
  ⟨Int64.minValue, Int64.maxValue⟩

instance : Inhabited Interval :=
  ⟨unbounded⟩

def constant (value : Int64) : Interval :=
  ⟨value, value⟩

def nonnegative : Interval :=
  ⟨0, Int64.maxValue⟩

def boolean : Interval :=
  ⟨0, 1⟩

def truth (value : Bool) : Interval :=
  constant (if value then 1 else 0)

/-- The words that fit in a number of bytes. -/
def ofItem (bytes : Nat) (signed : Bool) : Interval :=
  if 1 ≤ bytes ∧ bytes ≤ 7 then
    if signed then
      ⟨Int64.ofInt (-Int.pow 2 (8 * bytes - 1)), Int64.ofInt (Int.pow 2 (8 * bytes - 1) - 1)⟩
    else
      ⟨0, Int64.ofInt (Int.pow 2 (8 * bytes) - 1)⟩
  else
    unbounded

def isConstant (interval : Interval) : Bool :=
  interval.lower == interval.upper

def constant? (interval : Interval) : Option Int64 :=
  if interval.isConstant then some interval.lower else none

def isExactly (interval : Interval) (value : Int64) : Bool :=
  interval.lower == value && interval.upper == value

def contains (interval : Interval) (value : Int64) : Bool :=
  decide (interval.lower ≤ value) && decide (value ≤ interval.upper)

instance : Membership Int64 Interval where
  mem interval value := interval.lower ≤ value ∧ value ≤ interval.upper

def isUnbounded (interval : Interval) : Bool :=
  interval.lower == Int64.minValue && interval.upper == Int64.maxValue

def isBoolean (interval : Interval) : Bool :=
  decide (0 ≤ interval.lower) && decide (interval.upper ≤ 1)

def isNonnegative (interval : Interval) : Bool :=
  decide (0 ≤ interval.lower)

def excludesZero (interval : Interval) : Bool :=
  !interval.contains 0

/-- Every word of the one is below every word of the other. -/
def allLt (left right : Interval) : Bool :=
  decide (left.upper < right.lower)

def allLe (left right : Interval) : Bool :=
  decide (left.upper ≤ right.lower)

def allGt (left right : Interval) : Bool :=
  right.allLt left

def allGe (left right : Interval) : Bool :=
  right.allLe left

def isWithin (inner outer : Interval) : Bool :=
  decide (outer.lower ≤ inner.lower) && decide (inner.upper ≤ outer.upper)

/-- The smallest interval around both. -/
def union (left right : Interval) : Interval :=
  ⟨min left.lower right.lower, max left.upper right.upper⟩

/-- The text of an interval; an end at the limit of words is written as infinite. -/
def text (interval : Interval) : String :=
  let lower := toString interval.lower.toInt
  let upper := toString interval.upper.toInt
  if interval.lower = Int64.minValue then
    if interval.upper = Int64.maxValue then "(-inf, inf)" else "(-inf, " ++ upper ++ "]"
  else if interval.upper = Int64.maxValue then "[" ++ lower ++ ", inf)"
  else "[" ++ lower ++ ", " ++ upper ++ "]"

end Interval

end LinearTrace
