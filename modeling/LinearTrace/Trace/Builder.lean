import LinearTrace.Trace
import LinearTrace.Fault

/-!
# Building traces

A builder appends operations one by one and names their results. It is the same
state as a trace, so every function here is work on a trace.
-/

namespace LinearTrace.Builder

abbrev BuilderM := Work Trace

def input (type : ValueType) : BuilderM Box :=
  modifyGet fun trace =>
    let (box, supply) := trace.supply.fresh type
    (box, { trace with supply := supply })

/-- Append an operation and keep later boxes apart from its result. -/
def push (op : Operation) : BuilderM Unit :=
  modify fun trace =>
    { trace with ops := trace.ops ++ [op], supply := op.result.toList.foldl BoxSupply.reserve trace.supply }

/-- Append an operation with a result of the given type, if one is given. -/
def pushFresh (op : Operation) (type : Option ValueType) : BuilderM (Option Box) := do
  match type with
  | some type =>
    let box ← input type
    push { op with result := some box }
    return some box
  | none =>
    push op
    return none

def label (boxes : List Box) (token : Nat) : BuilderM Unit :=
  push { opcode := .label, args := boxes.map .box, descriptor := some (.target token) }

def jump (args : List Value) (token : Nat) : BuilderM Unit :=
  push { opcode := .jump, args := args, descriptor := some (.target token) }

/-- The type of the result that an operation code fixes by itself. -/
def resultType (opcode : Opcode) : Except Fault (Option ValueType) :=
  match opcode.resultClass with
  | .int => .ok (some .int)
  | .float => .ok (some .float)
  | .ref => .ok (some .ref)
  | .void => .ok none
  | .fromDescriptor | .explicit => .error (.abort (.needsResultType opcode))

/-- An operation whose result follows from its code. -/
def operation (opcode : Opcode) (args : List Value) : BuilderM (Option Box) := do
  let type ← resultType opcode
  pushFresh { opcode := opcode, args := args } type

/-- An operation that has to have a result; it is appended even when it has none. -/
def pureOperation (opcode : Opcode) (args : List Value) : BuilderM Box := do
  match ← operation opcode args with
  | some box => return box
  | none => throw (.abort (.hasNoResult opcode))

def typed (opcode : Opcode) (args : List Value) (type : ValueType) : BuilderM Box := do
  let box ← input type
  push { opcode := opcode, args := args, result := some box }
  return box

def load (opcode : Opcode) (args : List Value) (array : ArrayDescriptor) : BuilderM Box := do
  let box ← input array.itemType
  push { opcode := opcode, args := args, result := some box, descriptor := some (.array array) }
  return box

def store (opcode : Opcode) (args : List Value) (array : ArrayDescriptor) : BuilderM Unit :=
  push { opcode := opcode, args := args, descriptor := some (.array array) }

def call (opcode : Opcode) (args : List Value) (descriptor : CallDescriptor)
    (type : Option ValueType) : BuilderM (Option Box) :=
  pushFresh { opcode := opcode, args := args, descriptor := some (.call descriptor) } type

/-- An ordinary guard with a snapshot of one frame. -/
def guard (opcode : Opcode) (args failArgs : List Value) : BuilderM Unit :=
  push { opcode := opcode, args := args, descriptor := some (.guard .guard),
         snapshot := some (.root failArgs) }

def recordCallResult (args : List Const) (result : Const) : BuilderM Unit :=
  modify fun trace => trace.recordCallResult args result

end LinearTrace.Builder
