import LinearTrace.Dependency.Reach

/-!
# Relaxed guards

A guard that resumes at the loop header restarts the whole iteration when it
fails, so it may move in front of the early exit, provided that nothing it
depends on has an effect.
-/

namespace LinearTrace.DependencyGraph

/-- The data inputs of a node that lie behind both the label and the early exit. -/
def coneInputs (graph : DependencyGraph) (position : Nat) : List Nat :=
  (graph.node position).dataInputs.filter fun input =>
    some input != graph.label && some input != graph.earlyExit

/-- A guard together with everything it is computed from behind the label and the early exit. -/
def cone (graph : DependencyGraph) (guard : Nat) : List Nat :=
  graph.visitFrom graph.coneInputs [guard]

def hasPureCone (graph : DependencyGraph) (guard : Nat) : Bool :=
  (graph.visitFrom graph.coneInputs (graph.coneInputs guard).reverse).all fun position =>
    (graph.op position).opcode.isPure

/-- Let a guard resume at the loop header with the snapshot of another guard. -/
def relaxGuard (graph : DependencyGraph) (guard snapshotOf : Nat) : DependencyGraph :=
  let snapshot := (graph.op snapshotOf).snapshot
  graph.modifyNode guard fun node =>
    { node with op := { node.op with descriptor := some (.guard .atLoopHeader), snapshot := snapshot } }

def raisePriority (graph : DependencyGraph) (positions : List Nat) : DependencyGraph :=
  positions.foldl (fun graph position =>
    graph.modifyNode position fun node => { node with priority := max node.priority 10 }) graph

/-- Let a node be fed by the label in place of the early exit. -/
def reroot (graph : DependencyGraph) (label earlyExit position : Nat) : DependencyGraph :=
  (graph.unlink earlyExit position).link label position .pullUp

/-- Move one guard in front of the early exit and of every effect, unless it depends on something
impure. -/
def pullUpGuard? (graph : DependencyGraph) (label earlyExit : Nat) (effects : List Nat)
    (guard : Nat) : Option DependencyGraph :=
  let cone := graph.cone guard
  if cone.all fun position => position == guard || (graph.op position).opcode.isPure then
    let fed := cone.filter fun position => (graph.node position).dataInputs.contains earlyExit
    let graph := fed.foldl (fun graph position => graph.reroot label earlyExit position) graph
    let graph := graph.raisePriority cone
    let graph := graph.link guard earlyExit .pullUp
    some (effects.foldl (fun graph effect => graph.link guard effect .pullUp) graph)
  else
    none

/-- Move guards one after the other; on the first that cannot move, stop and say so. -/
def pullUpGuards (label earlyExit : Nat) (effects : List Nat) :
    List Nat → DependencyGraph → Bool × DependencyGraph
  | [], graph => (true, graph)
  | guard :: rest, graph =>
    match graph.pullUpGuard? label earlyExit effects guard with
    | some graph => pullUpGuards label earlyExit effects rest graph
    | none => (false, graph)

def effects (graph : DependencyGraph) : List Nat :=
  (List.range graph.size).filter fun position => (graph.node position).hasSideEffect

/-- Move every relaxed guard in front of the early exit; false when one of them cannot move. -/
def pullUpRelaxedGuards (graph : DependencyGraph) : Bool × DependencyGraph :=
  match graph.label, graph.earlyExit with
  | some label, some earlyExit =>
    let relaxed := graph.guards.filter fun guard => (graph.node guard).isRelaxed
    pullUpGuards label earlyExit graph.effects relaxed graph
  | _, _ => (true, graph)

end LinearTrace.DependencyGraph
