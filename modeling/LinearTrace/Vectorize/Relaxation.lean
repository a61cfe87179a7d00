import LinearTrace.Dependency.Paths
import LinearTrace.Dependency.Relax

/-!
# Relaxing guards to the early exit

A guard may resume at the loop header when it depends on the early exit only
through pure index arithmetic. Then it is moved in front of the early exit, and
whatever feeds it is fed by the label instead.
-/

namespace LinearTrace

/-- The guards of a loop as a whole, of which there is one for all iterations. -/
def Opcode.isLoopGuard : Opcode → Bool
  | .guardEarlyExit | .guardFutureCondition | .guardNotInvalidated => true
  | _ => false

/-- What the paths from the early exit to a guard ask for. -/
structure GuardPaths where
  graph : DependencyGraph
  /-- Nodes whose edge to the guard is no flow of data and is cut. -/
  cut : List Nat := []
  /-- Nodes fed by the early exit that the label is to feed. -/
  pulled : List Nat := []

namespace GuardPaths

def insertNew (nodes : List Nat) (node : Nat) : List Nat :=
  if nodes.contains node then nodes else nodes ++ [node]

/-- Let pure index arithmetic go first. -/
def prioritize (graph : DependencyGraph) (positions : List Nat) : DependencyGraph :=
  positions.foldl (fun graph position =>
    graph.modifyNode position fun node => { node with priority := 10 }) graph

/-- Look at the paths that lead back from a guard to the early exit. The verdict is false when
one of them carries data through something impure. -/
def inspect (guard : Nat) : List (List Nat) → GuardPaths → Bool × GuardPaths
  | [], state => (true, state)
  | path :: rest, state =>
    let input := path.tail.headD guard
    let inner := path.tail.dropLast
    if state.graph.edgeKind? input guard ≠ some .data then
      inspect guard rest { state with cut := insertNew state.cut input }
    else if inner.all fun position => (state.graph.op position).opcode.isPure then
      inspect guard rest { state with
        graph := prioritize state.graph inner
        pulled := insertNew state.pulled (path.dropLast.getLastD guard) }
    else
      (false, state)

/-- Cut and pull what the paths ask for, and let the guard resume like the early exit. -/
def relax (state : GuardPaths) (label earlyExit guard : Nat) : DependencyGraph :=
  let graph := state.cut.foldl (fun graph node => graph.unlink node guard) state.graph
  let graph := state.pulled.foldl (fun graph node => graph.reroot label earlyExit node) graph
  (graph.link guard earlyExit .pullUp).relaxGuard guard earlyExit

end GuardPaths

structure Relaxation where
  graph : DependencyGraph
  relaxed : Nat := 0

namespace Relaxation

def isCandidate (graph : DependencyGraph) (earlyExit guard : Nat) : Bool :=
  guard != earlyExit && !(graph.op guard).opcode.isLoopGuard
    && (graph.op guard).resume != .atPosition

def step (label earlyExit maxPaths : Nat) (state : Relaxation) (guard : Nat) : Relaxation :=
  if isCandidate state.graph earlyExit guard then
    match state.graph.paths guard earlyExit maxPaths with
    | none => state
    | some paths =>
      match GuardPaths.inspect guard paths { graph := state.graph } with
      | (false, inspected) => { state with graph := inspected.graph }
      | (true, inspected) => ⟨inspected.relax label earlyExit guard, state.relaxed + 1⟩
  else
    state

/-- Relax every guard where that is possible; nothing for a graph without label or early exit. -/
def ofGraph? (graph : DependencyGraph) (maxPaths : Nat) : Option Relaxation :=
  match graph.label, graph.earlyExit with
  | some label, some earlyExit =>
    some (graph.guards.foldl (step label earlyExit maxPaths) { graph := graph })
  | _, _ => none

end Relaxation

end LinearTrace
