import LinearTrace.Dependency

/-!
# Building dependency graphs

The graph of a list of operations is built in program order. Besides the flow of
data it orders accesses that may touch the same item, keeps effects between the
guards around them, keeps loads behind guards, and ties a guard to the boxes of
its snapshot. When there is an early exit, a guard that resumes at the loop
header only needs its operands.
-/

namespace LinearTrace

/-- What a memory access, or an effect that may access any memory, leaves behind. -/
structure Access where
  node : Nat
  writes : Bool
  memory : Option MemoryRef

/-- The access may touch what a reference touches; without a reference it may touch anything. -/
def Access.mayTouch (access : Access) (memory : Option MemoryRef) : Except Fault Bool :=
  match access.memory, memory with
  | some left, some right => left.mayAlias right
  | _, _ => .ok true

/-- The accesses that a new access must follow, the latest first. A write follows every access
up to the latest conflicting write; a read follows the latest conflicting write. -/
def Access.conflicts (writes : Bool) (memory : Option MemoryRef) :
    List Access → Except Fault (List Nat)
  | [] => .ok []
  | access :: earlier => do
      if ← access.mayTouch memory then
        if access.writes then return [access.node]
        else if writes then return access.node :: (← conflicts writes memory earlier)
        else conflicts writes memory earlier
      else
        conflicts writes memory earlier

/-- A graph under construction. -/
structure GraphBuilder where
  graph : DependencyGraph
  /-- The node that currently defines each box. -/
  definitions : Std.HashMap Box Nat := ∅
  /-- The last guard that is kept in order. -/
  lastGuard : Option Nat := none
  /-- Effects since that guard. -/
  effects : List Nat := []
  /-- Accesses so far, the latest first. -/
  accesses : List Access := []

namespace GraphBuilder

def definers (builder : GraphBuilder) (values : List Value) : List Nat :=
  (values.filterMap Value.box?).filterMap fun box => builder.definitions[box]?

def define (builder : GraphBuilder) (boxes : List Box) (position : Nat) : GraphBuilder :=
  { builder with
    definitions := boxes.foldl (fun table box => table.insert box position) builder.definitions }

def link (builder : GraphBuilder) (source target : Nat) (kind : EdgeKind) : GraphBuilder :=
  { builder with graph := builder.graph.link source target kind }

def linkAll (builder : GraphBuilder) (sources : List Nat) (target : Nat) (kind : EdgeKind) :
    GraphBuilder :=
  { builder with graph := builder.graph.linkAll sources target kind }

def addData (builder : GraphBuilder) (position : Nat) (op : Operation) : GraphBuilder :=
  builder.linkAll (builder.definers op.args) position .data

/-- A guard that stays in order: behind its snapshot, the guard before it and the effects since. -/
def addChainedGuard (builder : GraphBuilder) (position : Nat) (op : Operation) : GraphBuilder :=
  let builder := builder.linkAll (builder.definers op.failArgs) position .snapshot
  let builder := builder.linkAll builder.lastGuard.toList position .guard
  let builder := builder.linkAll builder.effects position .sideEffect
  { builder with lastGuard := some position, effects := [] }

/-- The early exit follows the label and takes over the definition of its boxes. -/
def addEarlyExit (builder : GraphBuilder) (position : Nat) : GraphBuilder :=
  match builder.graph.label with
  | some label =>
    (builder.link label position .label).define (builder.graph.op label).argBoxes position
  | none => builder

def addGuard (builder : GraphBuilder) (position : Nat) (op : Operation) : GraphBuilder :=
  let builder :=
    { builder with graph := { builder.graph with guards := builder.graph.guards ++ [position] } }
  let isRelaxed :=
    builder.graph.earlyExit.isSome && (builder.graph.node position).isRelaxed
  let builder := if isRelaxed then builder else builder.addChainedGuard position op
  if op.opcode = .guardEarlyExit then builder.addEarlyExit position else builder

def addAccess (builder : GraphBuilder) (position : Nat) (op : Operation) :
    Except Fault GraphBuilder := do
  let memory := MemoryRef.ofOperation? builder.graph.indices op
  let writes := !op.opcode.isLoad
  let conflicts ← Access.conflicts writes memory builder.accesses
  let builder := builder.linkAll conflicts position .memory
  let builder :=
    if writes then builder else builder.linkAll builder.lastGuard.toList position .guard
  let graph := builder.graph.modifyNode position fun node => { node with memory := memory }
  let memoryNodes :=
    if memory.isSome then graph.memoryNodes ++ [position] else graph.memoryNodes
  return { builder with
    graph := { graph with memoryNodes := memoryNodes }
    accesses := ⟨position, writes, memory⟩ :: builder.accesses }

/-- An effect follows the last guard and precedes the next one. -/
def addEffect (builder : GraphBuilder) (position : Nat) : GraphBuilder :=
  let builder := builder.linkAll builder.lastGuard.toList position .sideEffect
  { builder with effects := builder.effects ++ [position] }

def add (builder : GraphBuilder) (position : Nat) (op : Operation) : Except Fault GraphBuilder := do
  if op.opcode = .label ∧ position = 0 then
    return builder.define op.argBoxes position
  let builder := builder.addData position op
  let builder := if op.isGuard then builder.addGuard position op else builder
  let builder ←
    if op.opcode.isArrayAccess || op.opcode.hasSideEffect then builder.addAccess position op
    else pure builder
  let builder := if op.opcode.hasSideEffect then builder.addEffect position else builder
  return builder.define op.result.toList position

def addAll (builder : GraphBuilder) (position : Nat) : List Operation → Except Fault GraphBuilder
  | [] => .ok builder
  | op :: rest => do (← builder.add position op).addAll (position + 1) rest

end GraphBuilder

namespace DependencyGraph

/-- The nodes without edges, and what can be said about them one by one. -/
def unlinked (ops : List Operation) : DependencyGraph where
  nodes := (ops.map fun op => { op := op }).toArray
  indices := .ofOperations ops
  earlyExit := ops.findIdx? fun op => op.opcode == .guardEarlyExit

/-- Nodes without followers precede the closing operation. -/
def closeEnd (graph : DependencyGraph) : DependencyGraph :=
  let last := graph.size - 1
  if (graph.op last).opcode.isFinal then
    (List.range last).foldl (fun graph position =>
      if (graph.node position).provides.isEmpty then graph.link position last .jump else graph)
      graph
  else
    graph

/-- The label precedes nodes without predecessors. -/
def closeStart (graph : DependencyGraph) : DependencyGraph :=
  match graph.label with
  | some label =>
    (List.range' 1 (graph.size - 1)).foldl (fun graph position =>
      if (graph.node position).depends.isEmpty then graph.link label position .label else graph)
      graph
  | none => graph

def ofOperations (ops : List Operation) : Except Fault DependencyGraph := do
  let builder ← GraphBuilder.addAll { graph := unlinked ops } 0 ops
  if builder.graph.size < 2 then return builder.graph
  else return builder.graph.closeEnd.closeStart

end DependencyGraph

end LinearTrace
