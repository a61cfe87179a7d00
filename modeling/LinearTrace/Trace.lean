import Std.Data.HashMap
import LinearTrace.Operation

/-!
# Traces

A trace is a list of operations with the supply of its boxes and the results of
pure calls that were seen while it was recorded. It is a loop when it starts
with a label and ends with a jump or another label.
-/

namespace LinearTrace

/-- Results of pure calls, by the constant operands of the call, target included. -/
abbrev CallResults := Std.HashMap (List Const) Const

/-- A linear list of operations. -/
structure Trace where
  ops : List Operation := []
  supply : BoxSupply := {}
  callResults : CallResults := ∅
  deriving Inhabited

namespace Trace

/-- The supply above every box that an operation defines or reads. -/
def reserveOperation (supply : BoxSupply) (op : Operation) : BoxSupply :=
  (op.result.toList ++ op.uses.filterMap Value.box?).foldl BoxSupply.reserve supply

/-- The trace of the given operations, with a supply above every box they mention. -/
def ofOperations (ops : List Operation) : Trace :=
  { ops := ops, supply := ops.foldl reserveOperation {} }

def withOperations (trace : Trace) (ops : List Operation) : Trace :=
  { trace with ops := ops }

/-- Remember the result of a pure call; a later result replaces an earlier one. -/
def recordCallResult (trace : Trace) (args : List Const) (result : Const) : Trace :=
  { trace with callResults := trace.callResults.insert args result }

/-- A list of operations that starts with a label and ends with a jump or label. -/
def isLoopBody (ops : List Operation) : Bool :=
  match ops with
  | first :: second :: rest =>
    first.opcode == .label &&
      match ((second :: rest).getLast?).map Operation.opcode with
      | some .jump | some .label => true
      | _ => false
  | _ => false

def isLoop (trace : Trace) : Bool :=
  isLoopBody trace.ops

def count (trace : Trace) (opcode : Opcode) : Nat :=
  trace.ops.countP fun op => op.opcode == opcode

/-- The text of a trace, one operation to a line. -/
def text (trace : Trace) : String :=
  String.join (trace.ops.map fun op => op.text ++ "\n")

end Trace

end LinearTrace
