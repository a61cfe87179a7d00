import LinearTrace.Pack

/-!
# Combining packs

Packs that meet are joined into longer ones. The packs that remain are made
disjoint and recorded in the graph, and they must leave it schedulable: the graph
with each pack contracted to one node has no cycle.
-/

namespace LinearTrace

namespace PackSet

/-- Two packs can be joined: they meet, have one lane type, and no member of the one depends on a
new member of the other. -/
def canJoin (graph : DependencyGraph) (left right : Pack) : Except Fault Bool :=
  if left.meets right && left.laneType == right.laneType then
    left.members.allM fun member => right.rest.allM fun other =>
      graph.independentChecked member other
  else
    .ok false

def findJoin (set : PackSet) (graph : DependencyGraph) : Except Fault (Option (Nat × Nat)) := do
  let indexed := set.packs.zipIdx
  let candidates := indexed.flatMap fun left =>
    (indexed.filter fun right => left.2 != right.2).map fun right => (left, right)
  let found ← candidates.findM? fun (left, right) => canJoin graph left.1 right.1
  return found.map fun (left, right) => (left.2, right.2)

/-- Take out the pack at a position and put the last pack in its place. -/
def removeBySwap (packs : List Pack) (position : Nat) : List Pack :=
  match packs.getLast? with
  | some last => (packs.set position last).dropLast
  | none => []

def joinAt (packs : List Pack) (first second : Nat) : List Pack :=
  match packs[first]?, packs[second]? with
  | some left, some right =>
    let remaining := removeBySwap packs second
    let position := if first = remaining.length then second else first
    remaining.set position (left.append right)
  | _, _ => packs

/-- Join packs as long as two can be joined. Every step leaves one pack less. -/
def joinAll (graph : DependencyGraph) : Nat → PackSet → Except Fault PackSet
  | 0, set => .ok set
  | fuel + 1, set => do
      match ← set.findJoin graph with
      | some (first, second) => joinAll graph fuel ⟨joinAt set.packs first second⟩
      | none => return set

/-- The packs that share no member with a claimed node or an earlier pack that is kept. -/
def disjointFrom : List Nat → List Pack → List Pack
  | _, [] => []
  | claimed, pack :: rest =>
    if pack.members.any claimed.contains then disjointFrom claimed rest
    else pack :: disjointFrom (pack.members ++ claimed) rest

def makeDisjoint (set : PackSet) : PackSet :=
  ⟨disjointFrom [] set.packs⟩

def packOf (set : PackSet) (node : Nat) : Option Nat :=
  set.packs.findIdx? fun pack => pack.members.contains node

def assign (set : PackSet) (graph : DependencyGraph) : DependencyGraph :=
  { graph with
    nodes := graph.nodes.mapIdx fun position node => { node with pack := set.packOf position } }

def isWithin (set : PackSet) (graph : DependencyGraph) : Bool :=
  set.packs.all fun pack => pack.members.all fun member => decide (member < graph.size)

/-- The group of a node: its pack, numbered after the nodes, or the node itself. -/
def group (graph : DependencyGraph) (node : Nat) : Nat :=
  match (graph.node node).pack with
  | some pack => graph.size + pack
  | none => node

def groupMembers (set : PackSet) (graph : DependencyGraph) (number : Nat) : List Nat :=
  if number < graph.size then [number]
  else
    match set.packs[number - graph.size]? with
    | some pack => pack.members
    | none => []

/-- The groups that the edges out of a node lead to, less its own. -/
def leads (graph : DependencyGraph) (own node : Nat) : List Nat :=
  ((graph.successors node).map (group graph)).filter fun next => next != own

def groupSuccessors (set : PackSet) (graph : DependencyGraph) (number : Nat) : List Nat :=
  (set.groupMembers graph number).flatMap (leads graph number)

/-- A topological sort of the groups, as far as it has come. -/
structure Sorting where
  /-- For each group, how many edges lead into it from groups that have not been visited. -/
  indegree : Array Nat
  /-- The groups that may be visited, the next one first. -/
  ready : List Nat

namespace Sorting

/-- The groups below a number that have a node. -/
def present (graph : DependencyGraph) (count : Nat) : List Nat :=
  let groups := (List.range graph.size).map (group graph)
  (List.range count).filter groups.contains

def start (graph : DependencyGraph) (count : Nat) : Sorting :=
  let edges := (List.range graph.size).flatMap fun node => leads graph (group graph node) node
  { indegree := (Array.range count).map edges.count
    ready := ((present graph count).filter fun number => edges.count number == 0).reverse }

/-- Take away an edge into a group, which is ready when no other is left. -/
def release (sorting : Sorting) (number : Nat) : Except Fault Sorting :=
  match sorting.indegree[number]? with
  | none => .error (.abort .outOfRange)
  | some 0 => .error (.abort .overflow)
  | some (left + 1) =>
    .ok ⟨sorting.indegree.setIfInBounds number left,
      if left = 0 then number :: sorting.ready else sorting.ready⟩

/-- Visit groups until none is ready, and count them. No group is visited twice. -/
def visit (next : Nat → List Nat) : Nat → Sorting → Except Fault Nat
  | 0, _ => .ok 0
  | fuel + 1, sorting =>
    match sorting.ready with
    | [] => .ok 0
    | number :: ready => do
      let visited ← visit next fuel (← (next number).foldlM release ⟨sorting.indegree, ready⟩)
      return visited + 1

end Sorting

/-- Edges lead to nodes, and the packs of nodes are there. -/
def isClosed (set : PackSet) (graph : DependencyGraph) : Bool :=
  (List.range graph.size).all fun node =>
    decide (group graph node < graph.size + set.packs.length)
      && (graph.successors node).all fun next => decide (next < graph.size)

/-- A topological sort visits all groups. -/
def isSchedulable (set : PackSet) (graph : DependencyGraph) : Except Fault Bool := do
  let count := graph.size + set.packs.length
  unless set.isClosed graph do throw (.abort .outOfRange)
  let visited ← Sorting.visit (set.groupSuccessors graph) count (.start graph count)
  return visited == (Sorting.present graph count).length

end PackSet

structure Packing where
  graph : DependencyGraph
  packs : PackSet := {}
  deriving Inhabited

namespace Packing

def join (packing : Packing) : Except Fault Packing := do
  let joined ← PackSet.joinAll packing.graph packing.packs.packs.length packing.packs
  let packs := joined.makeDisjoint
  if packs.isWithin packing.graph then return ⟨packs.assign packing.graph, packs⟩
  else throw (.abort .outOfRange)

/-- Combine the packs; there must be some, and they must leave the graph schedulable. -/
def combine : Work Packing Unit := do
  let packing ← get
  if packing.packs.packs.isEmpty then Work.reject .noPacks
  let packing ← packing.join
  set packing
  unless ← packing.packs.isSchedulable packing.graph do Work.reject .cyclicPacks

end Packing

end LinearTrace
