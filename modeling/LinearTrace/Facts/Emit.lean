import LinearTrace.Facts.Range
import LinearTrace.Opcode.Evaluate

/-!
# Emitting operations

Every operation of the output goes through emission. Replacements are put into
its operands and, for a guard, into its snapshot. Then a pure operation on
constants is folded, one whose result is known is dropped in favour of that
result, and one whose interval has a single word becomes that word; anything
else is appended to the output.
-/

namespace LinearTrace

/-- What becomes of an operation that is to be emitted. -/
inductive Emission where
  | constant (result : Box) (value : Const)
  | reuse (result : Box) (value : Value)
  /-- The operation is appended; its result, if it is an integer, lies in the interval. -/
  | append (interval : Interval)
  deriving Repr

namespace Facts

/-- The operation with replacements in its operands and, for a guard, its snapshot. -/
def resolveOperation (facts : Facts) (op : Operation) : Operation :=
  { op with
    args := op.args.map facts.resolve
    snapshot :=
      if op.isGuard then op.snapshot.map fun snapshot => (snapshot.rename facts.resolve).snapshot
      else op.snapshot }

/-- The operation may be folded or dropped in favour of a known result. -/
def isReusable (op : Operation) : Bool :=
  op.opcode.isPure && !op.opcode.isVector

def fold? (op : Operation) : Option Const := do
  op.opcode.evaluate (← op.args.mapM Value.const?)

def reuse? (facts : Facts) (op : Operation) (result : Box) : Option Emission :=
  if isReusable op then
    match fold? op with
    | some literal => some (.constant result literal)
    | none => (facts.known.lookup op.opcode op.args).map (.reuse result)
  else
    none

def emission (facts : Facts) (op : Operation) : Except Fault Emission :=
  match op.result with
  | none => .ok (.append .unbounded)
  | some result =>
    match facts.reuse? op result with
    | some emission => .ok emission
    | none =>
      if result.type.isInt then do
        let interval ← facts.resultInterval op
        match isReusable op, interval.constant? with
        | true, some word => return .constant result (.int word)
        | _, _ => return .append interval
      else
        .ok (.append .unbounded)

def allocationFact? (op : Operation) : Option PointerFact :=
  match op.opcode with
  | .new | .newWithVtable => op.size?.map fun size => .allocation size.typeId size.vtable
  | _ => none

/-- Learn from the result of an operation that is about to be appended. -/
def learnResult (facts : Facts) (op : Operation) (result : Box) (interval : Interval) : Facts :=
  { facts with
    intervals :=
      if interval.isUnbounded then facts.intervals else facts.intervals.insert result interval
    pointers :=
      match allocationFact? op with
      | some fact => facts.pointers.insert result fact
      | none => facts.pointers
    known :=
      if isReusable op then facts.known.record op.opcode op.args (.box result) else facts.known
    producers := facts.producers.insert result facts.output.size }

def append (facts : Facts) (op : Operation) (interval : Interval) : Facts :=
  let facts :=
    match op.result with
    | some result => facts.learnResult op result interval
    | none => facts
  { facts with output := facts.output.push op, lastRemoved := false }

def perform (facts : Facts) (op : Operation) : Emission → Facts
  | .constant result literal => facts.makeConstant (.box result) literal
  | .reuse result value => facts.makeEqual result value
  | .append interval => facts.append op interval

/-- Emit an operation; tells whether it was appended. -/
def emit (op : Operation) : FactsM Bool := do
  let facts ← get
  let op := facts.resolveOperation op
  let emission ← facts.emission op
  set (facts.perform op emission)
  return emission matches .append _

/-- Make the reverse forms of the operation emitted last known. -/
def recordReverseOfLast : FactsM Unit := do
  let facts ← get
  match facts.output.back? with
  | some op => set { facts with known := ← facts.known.recordReverse op }
  | none => return

end Facts

end LinearTrace
