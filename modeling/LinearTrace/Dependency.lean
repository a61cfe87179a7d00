import LinearTrace.MemoryRef

/-!
# Dependency graphs

One node for each operation of a loop body, by its position. An edge from one
node to another says that the second must come after the first. Each edge is
kept at both ends, in the order in which edges were added.
-/

namespace LinearTrace

/-- Why one node must follow another. -/
inductive EdgeKind where
  /-- The target reads a box that the source defines. -/
  | data
  /-- Both access memory and may touch the same item. -/
  | memory
  /-- Guards stay in order, and loads stay behind guards. -/
  | guard
  /-- Effects stay between their guards. -/
  | sideEffect
  /-- The source defines a box of the target's snapshot. -/
  | snapshot
  /-- A guard was moved to the loop header. -/
  | pullUp
  /-- Every node without followers precedes the closing operation. -/
  | jump
  /-- The label precedes every node without predecessors. -/
  | label
  deriving DecidableEq, Inhabited, Repr

namespace EdgeKind

def all : List EdgeKind :=
  [.data, .memory, .guard, .sideEffect, .snapshot, .pullUp, .jump, .label]

def name : EdgeKind → String
  | .data => "data"
  | .memory => "memory"
  | .guard => "guard"
  | .sideEffect => "side_effect"
  | .snapshot => "snapshot"
  | .pullUp => "pullup"
  | .jump => "jump"
  | .label => "label"

def ofName? (name : String) : Option EdgeKind :=
  all.find? fun kind => kind.name == name

end EdgeKind

/-- One end of an edge: the node at the other end and the reason. -/
structure Edge where
  node : Nat
  kind : EdgeKind
  deriving DecidableEq, Inhabited, Repr

/-- An operation with its edges. -/
structure Node where
  op : Operation
  /-- Nodes that must come later. -/
  provides : List Edge := []
  /-- Nodes that must come earlier. -/
  depends : List Edge := []
  memory : Option MemoryRef := none
  /-- Among ready nodes a higher priority goes first. -/
  priority : Int := 0
  pack : Option Nat := none
  deriving Inhabited

namespace Node

/-- A guard that resumes at the loop header, other than the early exit itself. -/
def isRelaxed (node : Node) : Bool :=
  node.op.exitsEarly && node.op.opcode != .guardEarlyExit

def hasSideEffect (node : Node) : Bool :=
  node.op.opcode.hasSideEffect

def dataInputs (node : Node) : List Nat :=
  (node.depends.filter fun edge => edge.kind == .data).map Edge.node

end Node

/-- The dependency graph of a list of operations. -/
structure DependencyGraph where
  nodes : Array Node
  memoryNodes : List Nat := []
  guards : List Nat := []
  indices : IndexTable := ∅
  earlyExit : Option Nat := none
  deriving Inhabited

namespace DependencyGraph

def size (graph : DependencyGraph) : Nat :=
  graph.nodes.size

/-- The node at a position; outside the graph a node without edges. -/
def node (graph : DependencyGraph) (position : Nat) : Node :=
  graph.nodes.getD position default

def op (graph : DependencyGraph) (position : Nat) : Operation :=
  (graph.node position).op

def operations (graph : DependencyGraph) : List Operation :=
  graph.nodes.toList.map Node.op

def label (graph : DependencyGraph) : Option Nat :=
  match graph.nodes[0]? with
  | some node => if node.op.opcode = .label then some 0 else none
  | none => none

def modifyNode (graph : DependencyGraph) (position : Nat) (change : Node → Node) :
    DependencyGraph :=
  { graph with nodes := graph.nodes.modify position change }

/-- Abort unless a position is in the graph. -/
def require (graph : DependencyGraph) (position : Nat) : Except Fault Unit :=
  if position < graph.size then .ok () else .error (.abort .outOfRange)

def fetch (graph : DependencyGraph) (position : Nat) : Except Fault Node :=
  match graph.nodes[position]? with
  | some node => .ok node
  | none => .error (.abort .outOfRange)

def edgeKind? (graph : DependencyGraph) (source target : Nat) : Option EdgeKind :=
  ((graph.node source).provides.find? fun edge => edge.node == target).map Edge.kind

def hasEdge (graph : DependencyGraph) (source target : Nat) : Bool :=
  (graph.node source).provides.any fun edge => edge.node == target

def canLink (graph : DependencyGraph) (source target : Nat) : Bool :=
  source != target && !graph.hasEdge source target

/-- Add an edge between different nodes; an edge that exists keeps its reason. -/
def link (graph : DependencyGraph) (source target : Nat) (kind : EdgeKind) : DependencyGraph :=
  if graph.canLink source target then
    (graph.modifyNode source fun node =>
      { node with provides := node.provides ++ [⟨target, kind⟩] }).modifyNode target fun node =>
      { node with depends := node.depends ++ [⟨source, kind⟩] }
  else
    graph

def linkAll (graph : DependencyGraph) (sources : List Nat) (target : Nat) (kind : EdgeKind) :
    DependencyGraph :=
  sources.foldl (fun graph source => graph.link source target kind) graph

/-- Add an edge between positions that may lie outside the graph, which aborts; also say whether
the edge is new. -/
def linkChecked (graph : DependencyGraph) (source target : Nat) (kind : EdgeKind) :
    Except Fault (Bool × DependencyGraph) := do
  if source = target then return (false, graph)
  graph.require source
  if graph.hasEdge source target then return (false, graph)
  graph.require target
  return (true, graph.link source target kind)

def unlink (graph : DependencyGraph) (source target : Nat) : DependencyGraph :=
  (graph.modifyNode source fun node =>
    { node with provides := node.provides.filter fun edge => edge.node != target }).modifyNode
    target fun node => { node with depends := node.depends.filter fun edge => edge.node != source }

def setPriority (graph : DependencyGraph) (position : Nat) (priority : Int) :
    Except Fault DependencyGraph := do
  graph.require position
  return graph.modifyNode position fun node => { node with priority := priority }

def setPack (graph : DependencyGraph) (position pack : Nat) : Except Fault DependencyGraph := do
  graph.require position
  return graph.modifyNode position fun node => { node with pack := some pack }

def successors (graph : DependencyGraph) (position : Nat) : List Nat :=
  (graph.node position).provides.map Edge.node

def predecessors (graph : DependencyGraph) (position : Nat) : List Nat :=
  (graph.node position).depends.map Edge.node

end DependencyGraph

end LinearTrace
