import LinearTrace.Interval.Transfer
import LinearTrace.Interval.Narrow
import LinearTrace.KnownResults
import LinearTrace.PointerFact
import LinearTrace.Target
import LinearTrace.Trace

/-!
# Facts about boxes

Everything a forward walk over a trace learns: which boxes are replaced by
another value, the intervals of integer boxes, the facts about references, the
results that are known, and the operations emitted so far.
-/

namespace LinearTrace

/-- The state of a forward walk. -/
structure Facts where
  target : Target
  /-- Boxes that stand for another value. -/
  replacements : Std.HashMap Box Value := ∅
  intervals : Std.HashMap Box Interval := ∅
  pointers : Std.HashMap Box PointerFact := ∅
  /-- The output position at which each emitted box is defined. -/
  producers : Std.HashMap Box Nat := ∅
  known : KnownResults := {}
  callResults : CallResults := ∅
  supply : BoxSupply := {}
  output : Array Operation := #[]
  /-- The operation handled last was dropped. -/
  lastRemoved : Bool := false
  deriving Inhabited

abbrev FactsM := Work Facts

namespace Facts

def start (target : Target) (trace : Trace) : Facts :=
  { target := target, supply := trace.supply, callResults := trace.callResults }

def toTrace (facts : Facts) : Trace :=
  { ops := facts.output.toList, supply := facts.supply, callResults := facts.callResults }

/-- Follow replacements for at most `steps` steps. -/
def follow (replacements : Std.HashMap Box Value) : Nat → Value → Value
  | _, .const literal => .const literal
  | 0, .box box => .box box
  | steps + 1, .box box =>
    match replacements[box]? with
    | some next => follow replacements steps next
    | none => .box box

/-- The value that a value stands for. A replacement is only ever entered for a value that
has none itself, so a chain visits each entry at most once. -/
def resolve (facts : Facts) (value : Value) : Value :=
  follow facts.replacements facts.replacements.size value

/-- The constant that a value is known to be. -/
def constant? (facts : Facts) (value : Value) : Option Const :=
  match facts.resolve value with
  | .const literal => some literal
  | .box box =>
    if box.type.isInt then
      ((facts.intervals[box]?).bind Interval.constant?).map .int
    else
      none

def word? (facts : Facts) (value : Value) : Option Int64 :=
  (facts.constant? value).bind Const.int?

def float? (facts : Facts) (value : Value) : Option Binary64 :=
  (facts.constant? value).bind Const.float?

def address? (facts : Facts) (value : Value) : Option UInt64 :=
  (facts.constant? value).bind Const.address?

def interval (facts : Facts) (value : Value) : Interval :=
  match facts.resolve value with
  | .const (.int word) => .constant word
  | .const _ => .unbounded
  | .box box => facts.intervals.getD box .unbounded

/-- What is known about a reference; constants are described by the target. -/
def pointer (facts : Facts) (value : Value) : PointerFact :=
  match facts.resolve value with
  | .const (.ref address) =>
    if address = 0 then .null
    else
      match facts.target.classOf? address with
      | some vtable => PointerFact.nonnull.withClass vtable
      | none => .nonnull
  | .const _ => {}
  | .box box => facts.pointers.getD box {}

/-- Learn about the box that a reference stands for; constants are left alone. -/
def updatePointer (facts : Facts) (value : Value) (update : PointerFact → PointerFact) : Facts :=
  match facts.resolve value with
  | .box box =>
    { facts with pointers := facts.pointers.insert box (update (facts.pointers.getD box {})) }
  | .const _ => facts

/-- From here on a box stands for a value. -/
def makeEqual (facts : Facts) (box : Box) (value : Value) : Facts :=
  let resolved := facts.resolve value
  if resolved = .box box then facts
  else { facts with replacements := facts.replacements.insert box resolved }

def makeConstant (facts : Facts) (value : Value) (literal : Const) : Facts :=
  match facts.resolve value with
  | .const _ => facts
  | .box box =>
    { facts with
      replacements := facts.replacements.insert box (.const literal)
      intervals :=
        match literal with
        | .int word => facts.intervals.insert box (.constant word)
        | _ => facts.intervals }

def makeWord (facts : Facts) (box : Box) (word : Int64) : Facts :=
  facts.makeConstant (.box box) (.int word)

def nextPosition (facts : Facts) : Nat :=
  facts.output.size

def callResult? (facts : Facts) (args : List Const) : Option Const :=
  facts.callResults[args]?

def freshBox (facts : Facts) (type : ValueType) : Box × Facts :=
  let (box, supply) := facts.supply.fresh type
  (box, { facts with supply := supply })

def markRemoved (facts : Facts) : Facts :=
  { facts with lastRemoved := true }

def operationAt (facts : Facts) (position : Nat) : Except Fault Operation :=
  match facts.output[position]? with
  | some op => .ok op
  | none => .error (.abort .outOfRange)

def replaceOperation (facts : Facts) (position : Nat) (op : Operation) : Except Fault Facts :=
  if position < facts.output.size then
    .ok { facts with output := facts.output.setIfInBounds position op }
  else
    .error (.abort .outOfRange)

/-- Narrow the interval of the integer box that a value stands for. -/
def narrow (value : Value) (narrowing : Interval.Narrowing) : FactsM Unit := do
  let facts ← get
  match facts.resolve value with
  | .const _ => return
  | .box box =>
    if box.type.isInt then
      match narrowing (facts.intervals.getD box .unbounded) with
      | .error cause interval =>
        set { facts with intervals := facts.intervals.insert box interval }
        Work.contradict cause
      | .ok changed interval =>
        let facts := { facts with intervals := facts.intervals.insert box interval }
        match changed, interval.constant? with
        | true, some word => set (facts.makeWord box word)
        | _, _ => set facts
    else
      return

end Facts

end LinearTrace
