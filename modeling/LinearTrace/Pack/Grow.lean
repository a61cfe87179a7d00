import LinearTrace.Pack

/-!
# Growing a pack set

Pairs are seeded from accesses to neighbouring items of one array. From there
the set grows along the operands and the users of its pairs until nothing can be
added.
-/

namespace LinearTrace.PackSet

/-- Every element with every later one. -/
def orderedPairs : List Nat → List (Nat × Nat)
  | [] => []
  | head :: tail => tail.map (fun later => (head, later)) ++ orderedPairs tail

/-- Two nodes access neighbouring items, in this order. -/
def accessesNext (graph : DependencyGraph) (left right : Nat) : Bool :=
  match (graph.node left).memory, (graph.node right).memory with
  | some first, some second => decide (left < right) && first.isAdjacentAfter second
  | _, _ => false

def seed (set : PackSet) (graph : DependencyGraph) (target : Target) : PackSet :=
  (orderedPairs graph.memoryNodes).foldl (fun set (left, right) =>
    if accessesNext graph left right && set.canPack graph target left right then
      set.addPair graph left right
    else
      set) set

def shouldPack (set : PackSet) (graph : DependencyGraph) (target : Target) (pack : Pack)
    (candidate : Nat × Nat) : Bool :=
  decide (candidate.1 < candidate.2) && set.canPack graph target candidate.1 candidate.2
    && decide (0 ≤ savings graph target candidate.1 candidate.2 pack)

def combinations (lefts rights : List Nat) : List (Nat × Nat) :=
  lefts.flatMap fun left => rights.map fun right => (left, right)

def operandCandidates (graph : DependencyGraph) (pack : Pack) : List (Nat × Nat) :=
  combinations (graph.predecessors pack.first) (graph.predecessors pack.last)

def userCandidates (graph : DependencyGraph) (pack : Pack) : List (Nat × Nat) :=
  combinations (graph.successors pack.first) (graph.successors pack.last)

/-- Add every pair of operands that is worth it. -/
def followOperands (set : PackSet) (graph : DependencyGraph) (target : Target) (pack : Pack) :
    PackSet :=
  (operandCandidates graph pack).foldl (fun set candidate =>
    if set.shouldPack graph target pack candidate then
      set.addPair graph candidate.1 candidate.2
    else
      set) set

/-- Add the first pair of users that is worth it. -/
def followUsers (set : PackSet) (graph : DependencyGraph) (target : Target) (pack : Pack) :
    PackSet :=
  match (userCandidates graph pack).find? (set.shouldPack graph target pack) with
  | some (left, right) => set.addPair graph left right
  | none => set

/-- Grow the set along one pack, provided that it is a pair. -/
def growAt (set : PackSet) (graph : DependencyGraph) (target : Target) (pack : Pack) : PackSet :=
  if pack.isPair then (set.followOperands graph target pack).followUsers graph target pack
  else set

/-- Grow the set along the packs from an index on, those added on the way included. -/
def growFrom (graph : DependencyGraph) (target : Target) : Nat → Nat → PackSet → PackSet
  | 0, _, set => set
  | fuel + 1, index, set =>
    match set.packs[index]? with
    | some pack => growFrom graph target fuel (index + 1) (set.growAt graph target pack)
    | none => set

/-- One round over all packs. Each pair that is added starts with another node, so no more packs
are added than there are nodes. -/
def growRound (set : PackSet) (graph : DependencyGraph) (target : Target) : PackSet :=
  growFrom graph target (set.packs.length + graph.size) 0 set

def growRounds (graph : DependencyGraph) (target : Target) : Nat → PackSet → PackSet
  | 0, set => set
  | fuel + 1, set =>
    let grown := set.growRound graph target
    if grown.packs.length = set.packs.length then grown
    else growRounds graph target fuel grown

def grow (set : PackSet) (graph : DependencyGraph) (target : Target) : PackSet :=
  growRounds graph target (graph.size + 1) set

/-- Growing along a pair looks at a node outside the graph. The edges of the last node are only
looked at when the first one has some. -/
def looksOutside (graph : DependencyGraph) (pack : Pack) : Bool :=
  pack.isPair && (decide (graph.size ≤ pack.first)
    || (decide (graph.size ≤ pack.last)
      && (!(graph.predecessors pack.first).isEmpty || !(graph.successors pack.first).isEmpty)))

/-- Grow a set whose pairs may have been found in another graph; looking at a node outside this
one aborts. -/
def growChecked (set : PackSet) (graph : DependencyGraph) (target : Target) :
    Except Fault PackSet :=
  if set.packs.any (looksOutside graph) then .error (.abort .outOfRange)
  else .ok (set.grow graph target)

end LinearTrace.PackSet
