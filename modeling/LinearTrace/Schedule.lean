import LinearTrace.Pack

/-!
# List scheduling

A node is ready once everything it depends on has been emitted. Among the ready
nodes the highest priority goes first, then program order. A packed node waits
for the rest of its pack, and a pack is emitted as one group.
-/

namespace LinearTrace

/-- One turn of the schedule. -/
inductive Turn where
  | node (position : Nat)
  /-- All members of a pack, by its position among the packs. -/
  | pack (position : Nat)
  deriving DecidableEq, Inhabited, Repr

/-- How far a schedule has come. -/
structure Scheduler where
  /-- For each node, how many of its predecessors have not been emitted. -/
  pending : Array Nat
  emitted : Array Bool
  remaining : Nat
  deriving Inhabited

namespace Scheduler

/-- The schedule before its first turn, with some nodes left out. -/
def start (graph : DependencyGraph) (leftOut : List Nat) : Scheduler where
  pending := graph.nodes.map fun node => node.depends.length
  emitted := (Array.range graph.size).map leftOut.contains
  remaining := (List.range graph.size).countP fun position => !leftOut.contains position

/-- A node of the graph that may be emitted. -/
def isReady (scheduler : Scheduler) (position : Nat) : Bool :=
  scheduler.emitted[position]? == some false && scheduler.pending[position]? == some 0

def companions (graph : DependencyGraph) (packs : List Pack) (position : Nat) : List Nat :=
  match (graph.node position).pack with
  | some pack => (packs[pack]?.map Pack.members).getD []
  | none => []

/-- A node that may be emitted, but whose pack is not there. -/
def isStray (scheduler : Scheduler) (graph : DependencyGraph) (packs : List Pack)
    (position : Nat) : Bool :=
  scheduler.isReady position && (graph.node position).pack.any (packs.length ≤ ·)

/-- A node that may be emitted together with its pack. -/
def isEligible (scheduler : Scheduler) (graph : DependencyGraph) (packs : List Pack)
    (position : Nat) : Bool :=
  scheduler.isReady position && (companions graph packs position).all scheduler.isReady

/-- The better of the best node so far and a later one. -/
def prefer (graph : DependencyGraph) (best : Option Nat) (position : Nat) : Option Nat :=
  match best with
  | some earlier =>
    if (graph.node earlier).priority < (graph.node position).priority then some position
    else some earlier
  | none => some position

/-- The first node of the highest priority among those that may be emitted. -/
def choose (scheduler : Scheduler) (graph : DependencyGraph) (packs : List Pack) : Option Nat :=
  ((List.range graph.size).filter (scheduler.isEligible graph packs)).foldl (prefer graph) none

def release (pending : Array Nat) (position : Nat) : Array Nat :=
  pending.modify position fun count => count - 1

def emit (graph : DependencyGraph) (scheduler : Scheduler) (position : Nat) :
    Except Fault Scheduler :=
  if scheduler.remaining = 0 then .error (.abort .overflow)
  else
    .ok {
      pending := (graph.successors position).foldl release scheduler.pending
      emitted := scheduler.emitted.setIfInBounds position true
      remaining := scheduler.remaining - 1 }

def next (scheduler : Scheduler) (graph : DependencyGraph) (packs : List Pack) :
    Except Fault (Turn × Scheduler) := do
  if (List.range graph.size).any (scheduler.isStray graph packs) then throw (.abort .outOfRange)
  match scheduler.choose graph packs with
  | none => throw (.abort (.schedulerStuck scheduler.remaining))
  | some position =>
    match (graph.node position).pack with
    | some pack =>
      return (.pack pack, ← (companions graph packs position).foldlM (emit graph) scheduler)
    | none => return (.node position, ← emit graph scheduler position)

/-- Take turns until everything is emitted or a turn fails. Each turn comes with the number of
nodes then left. -/
def run (graph : DependencyGraph) (packs : List Pack) :
    Nat → Scheduler → List (Turn × Nat) × Option Fault
  | 0, _ => ([], none)
  | fuel + 1, scheduler =>
    if scheduler.remaining = 0 then ([], none)
    else
      match scheduler.next graph packs with
      | .error fault => ([], some fault)
      | .ok (turn, scheduler) =>
        let (turns, fault) := run graph packs fuel scheduler
        ((turn, scheduler.remaining) :: turns, fault)

end Scheduler

/-- The turns of a whole schedule, and the fault that cut it short. -/
def DependencyGraph.schedule (graph : DependencyGraph) (packs : List Pack) (leftOut : List Nat) :
    List (Turn × Nat) × Option Fault :=
  let scheduler := Scheduler.start graph leftOut
  Scheduler.run graph packs scheduler.remaining scheduler

end LinearTrace
