import LinearTrace.Fault

/-!
# Narrowing intervals

A narrowing keeps the words of an interval that satisfy a condition and says
whether the interval became smaller. When no word is left the trace contradicts
itself, and the interval stays as it was.
-/

namespace LinearTrace.Interval

/-- A step that narrows the current interval and tells whether it changed. -/
abbrev Narrowing := EStateM Contradiction Interval Bool

def narrow (lower upper : Int64) : Narrowing := do
  let interval ← get
  let narrowed : Interval := ⟨max interval.lower lower, min interval.upper upper⟩
  if narrowed.upper < narrowed.lower then
    throw (.emptyNarrowing interval lower upper)
  set narrowed
  return narrowed.lower != interval.lower || narrowed.upper != interval.upper

def intersect (other : Interval) : Narrowing :=
  narrow other.lower other.upper

/-- Keep the words below some word of `other`. -/
def makeLt (other : Interval) : Narrowing :=
  match Word.sub? other.upper 1 with
  | some upper => narrow Int64.minValue upper
  | none => do throw (.belowLeast (← get))

def makeLe (other : Interval) : Narrowing :=
  narrow Int64.minValue other.upper

def makeGt (other : Interval) : Narrowing :=
  match Word.add? other.lower 1 with
  | some lower => narrow lower Int64.maxValue
  | none => do throw (.aboveGreatest (← get))

def makeGe (other : Interval) : Narrowing :=
  narrow other.lower Int64.maxValue

/-- Leave out zero where it is an end of the interval. -/
def makeNonzero : Narrowing := do
  let interval ← get
  if interval.lower = 0 then narrow 1 Int64.maxValue
  else if interval.upper = 0 then narrow Int64.minValue (-1)
  else return false

end LinearTrace.Interval
