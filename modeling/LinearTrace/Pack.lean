import LinearTrace.LaneType
import LinearTrace.Target
import LinearTrace.Dependency.Reach

/-!
# Packs

A pack is a group of operations of one kind, none of which depends on another,
that can run as the lanes of one vector operation. Packs start as pairs.
-/

namespace LinearTrace

/-- Nodes that become the lanes of one vector operation, in lane order. -/
structure Pack where
  first : Nat
  rest : List Nat
  laneType : Option LaneType := none
  deriving DecidableEq, Inhabited, Repr

namespace Pack

def pair (left right : Nat) : Pack :=
  { first := left, rest := [right] }

def members (pack : Pack) : List Nat :=
  pack.first :: pack.rest

def size (pack : Pack) : Nat :=
  pack.members.length

def last (pack : Pack) : Nat :=
  pack.rest.getLastD pack.first

def isPair (pack : Pack) : Bool :=
  pack.rest.length == 1

/-- The one pack ends where the other starts. -/
def meets (left right : Pack) : Bool :=
  left.last == right.first

/-- Bytes of all lanes together; zero while the type is unknown. -/
def byteSize (pack : Pack) : Nat :=
  match pack.laneType with
  | some type => type.size * pack.size
  | none => 0

def isOverloaded (pack : Pack) (registerSize : Nat) : Bool :=
  decide (registerSize < pack.byteSize)

/-- Go on with another pack that starts where this one ends. -/
def append (left right : Pack) : Pack :=
  { left with rest := left.rest ++ right.rest }

/-- The text of a pack, such as `Pack(#1, #2)`. -/
def text (pack : Pack) : String :=
  "Pack(" ++ ", ".intercalate (pack.members.map fun member => "#" ++ toString member) ++ ")"

end Pack

/-- The packs found in a loop body. -/
structure PackSet where
  packs : List Pack := []
  deriving DecidableEq, Inhabited, Repr

namespace PackSet

/-- The lane type that the array access at a position fixes. -/
def laneTypeAt (graph : DependencyGraph) (position : Nat) : Option LaneType :=
  ((graph.op position).array?.map LaneType.ofArray).filter LaneType.isValid

/-- Add a pair; array accesses get their lane type from the descriptor. -/
def addPair (set : PackSet) (graph : DependencyGraph) (left right : Nat) : PackSet :=
  ⟨set.packs ++ [{ Pack.pair left right with laneType := laneTypeAt graph left }]⟩

/-- Same code, descriptor and number of operands. -/
def isomorphic (left right : Operation) : Bool :=
  left.opcode == right.opcode && left.descriptor == right.descriptor
    && left.args.length == right.args.length

/-- No pack starts with the one node or ends with the other. -/
def isFree (set : PackSet) (left right : Nat) : Bool :=
  !set.packs.any fun pack => pack.first == left || pack.last == right

/-- Two nodes can become a pair: isomorphic operations with a vector form, independent of each
other, neither yet used on its side. -/
def canPack (set : PackSet) (graph : DependencyGraph) (target : Target) (left right : Nat) : Bool :=
  isomorphic (graph.op left) (graph.op right)
    && (target.vectorForm? (graph.op left).opcode).isSome
    && set.isFree left right
    && graph.independent left right

/-- The operation would compute the index of a packed array access. -/
def computesIndex (op packed : Operation) : Bool :=
  match packed.args, op.result with
  | _ :: index :: _, some result => packed.opcode.isArrayAccess && index == .box result
  | _, _ => false

/-- An operation is not worth packing beside a packed one. -/
def isUnprofitable (target : Target) (packed op : Operation) : Bool :=
  (target.vectorForm? op.opcode).isNone || computesIndex op packed

/-- The estimated gain of packing two nodes beside a pack: zero when the vectors can be handed on
and minus one otherwise. -/
def savings (graph : DependencyGraph) (target : Target) (left right : Nat) (pack : Pack) : Int :=
  let first := graph.op pack.first
  let last := graph.op pack.last
  if isUnprofitable target first (graph.op left) || isUnprofitable target last (graph.op right) then
    -1
  else if (target.vectorForm? first.opcode).isSome && (target.vectorForm? last.opcode).isSome then
    0
  else
    -1

/-- Add a pair whose first node may lie outside the graph, which aborts. -/
def addPairChecked (set : PackSet) (graph : DependencyGraph) (left right : Nat) :
    Except Fault PackSet := do
  graph.require left
  return set.addPair graph left right

def canPackChecked (set : PackSet) (graph : DependencyGraph) (target : Target)
    (left right : Nat) : Except Fault Bool := do
  graph.require left
  graph.require right
  return set.canPack graph target left right

def savingsChecked (set : PackSet) (graph : DependencyGraph) (target : Target)
    (left right position : Nat) : Except Fault Int := do
  match set.packs[position]? with
  | none => throw (.abort .outOfRange)
  | some pack =>
    [pack.first, pack.last, left, right].forM graph.require
    return savings graph target left right pack

end PackSet

end LinearTrace
