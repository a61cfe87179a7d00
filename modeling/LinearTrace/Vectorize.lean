import LinearTrace.Dependency.Build
import LinearTrace.Lowering
import LinearTrace.Pack.Combine
import LinearTrace.Pack.Grow
import LinearTrace.Schedule
import LinearTrace.Trace
import LinearTrace.Vectorize.Collapse
import LinearTrace.Vectorize.Unroll

/-!
# Vectorizing a loop

The body of a loop is unrolled until its narrowest array items fill a register,
independent operations of one kind are packed, and the packed graph is scheduled
with a vector operation for every pack. A loop for which this is impossible is
rejected.
-/

namespace LinearTrace

structure VectorizeConfig where
  enabled : Bool := true
  /-- Loops that need more further iterations are rejected. -/
  maxUnroll : Nat := 16
  /-- Guards with more paths to the early exit stay in place. -/
  maxPaths : Nat := 256
  collapsesGuards : Bool := true
  deriving DecidableEq, Inhabited, Repr

namespace VectorizeConfig

def disabled : VectorizeConfig :=
  { enabled := false }

def aggressive : VectorizeConfig :=
  { maxUnroll := 64, maxPaths := 4096 }

end VectorizeConfig

structure VectorizeStats where
  analyzed : Nat := 0
  vectorized : Nat := 0
  rejected : Nat := 0
  packs : Nat := 0
  /-- Vector operations that stand for packs. -/
  vectorOps : Nat := 0
  unpacks : Nat := 0
  /-- Guards moved in front of the early exit. -/
  relaxed : Nat := 0
  /-- Guards dropped since another one implies them. -/
  collapsed : Nat := 0
  deriving DecidableEq, Inhabited, Repr

namespace VectorizeStats

def merge (left right : VectorizeStats) : VectorizeStats where
  analyzed := left.analyzed + right.analyzed
  vectorized := left.vectorized + right.vectorized
  rejected := left.rejected + right.rejected
  packs := left.packs + right.packs
  vectorOps := left.vectorOps + right.vectorOps
  unpacks := left.unpacks + right.unpacks
  relaxed := left.relaxed + right.relaxed
  collapsed := left.collapsed + right.collapsed

/-- The share of loops that were vectorized, in single precision; zero when there were none. -/
def successRate (stats : VectorizeStats) : Float32 :=
  if stats.analyzed = 0 then 0
  else Float32.ofNat stats.vectorized / Float32.ofNat stats.analyzed

end VectorizeStats

/-- The state of vectorizing one loop. -/
structure Vectorizer where
  target : Target
  config : VectorizeConfig
  /-- The operations between the stages that work on a graph. -/
  ops : List Operation
  supply : BoxSupply
  graph : Option DependencyGraph := none
  packs : PackSet := {}
  /-- Bytes of the narrowest array item; zero when there is none. -/
  smallest : Nat := 0
  unrollCount : Nat := 0
  stats : VectorizeStats := {}
  deriving Inhabited

abbrev VectorizerM := Work Vectorizer

namespace Vectorizer

def start (target : Target) (config : VectorizeConfig) (trace : Trace) : Vectorizer where
  target := target
  config := config
  ops := trace.ops
  supply := trace.supply

/-- The item size of an access to an array of numbers. -/
def itemSize? (op : Operation) : Option Nat := do
  guard (op.opcode.isArrayAccess && !op.opcode.isVector)
  let descriptor ← op.array?
  guard (descriptor.kind != .ref && !descriptor.isStruct)
  return descriptor.itemSize

/-- The smaller of two sizes, where zero stands for none. -/
def narrower (smallest size : Nat) : Nat :=
  if smallest = 0 ∨ size < smallest then size else smallest

def smallestItem (ops : List Operation) : Nat :=
  (ops.filterMap itemSize?).foldl narrower 0

def findSmallest : VectorizerM Unit :=
  modify fun state => { state with smallest := smallestItem state.ops }

/-- How many further iterations fill a register with the narrowest items. -/
def unrollCountFor (state : Vectorizer) (registerSize : Nat) : Nat :=
  if state.smallest = 0 then 0 else registerSize / state.smallest - 1

/-- Emit one turn of the schedule, with packs as vector operations. -/
def emitTurn (graph : DependencyGraph) (packs : List Pack) : Turn → LoweringM Unit
  | .node position => do
      let op := graph.op position
      unless op.opcode.isDebug do
        Lowering.push (← Lowering.lowerScalar op)
  | .pack position => do
      match packs[position]? with
      | some pack => discard (Lowering.lowerPack graph pack)
      | none => throw (.abort .outOfRange)

def emitSchedule (graph : DependencyGraph) (packs : List Pack) : LoweringM Unit := do
  let (turns, fault) := graph.schedule packs []
  turns.forM fun (turn, _) => emitTurn graph packs turn
  match fault with
  | some fault => throw fault
  | none => pure ()

/-- Replace the operations by a schedule of the graph in which packs are vector operations. -/
def scheduleVectors : VectorizerM Unit := do
  let state ← get
  match state.graph with
  | none => pure ()
  | some graph =>
    let packs := state.packs.packs
    let lowering : Lowering := {
      target := state.target, registerSize := state.target.registerSize
      smallest := state.smallest, supply := state.supply }
    match emitSchedule graph packs lowering with
    | .error fault lowering =>
      set { state with graph := none, supply := lowering.supply }
      throw fault
    | .ok _ lowering =>
      set { state with
        graph := none
        ops := lowering.output.toList
        supply := lowering.supply
        stats := { state.stats with
          packs := state.stats.packs + packs.length
          vectorOps := state.stats.vectorOps + lowering.vectorOps
          unpacks := state.stats.unpacks + lowering.unpacks } }

def scheduledOperations (graph : DependencyGraph) : Except Fault (List Operation) :=
  match graph.schedule [] [] with
  | (_, some fault) => .error fault
  | (turns, none) => .ok (turns.filterMap fun
      | (.node position, _) => some (graph.op position)
      | (.pack _, _) => none)

/-- Relax guards to the early exit and reorder the body accordingly. -/
def relaxGuards : VectorizerM Unit := do
  let state ← get
  let graph ← DependencyGraph.ofOperations state.ops
  match Relaxation.ofGraph? graph state.config.maxPaths with
  | none => pure ()
  | some relaxation =>
    set { state with
      graph := none
      stats := { state.stats with relaxed := state.stats.relaxed + relaxation.relaxed } }
    let ops ← scheduledOperations relaxation.graph
    modify fun state => { state with ops := ops }

def unroll (count : Nat) : VectorizerM Unit :=
  modify fun state =>
    let (ops, supply) := Unrolling.unroll state.ops count state.supply
    { state with ops := ops, supply := supply }

def buildGraph : VectorizerM Unit := do
  let graph ← DependencyGraph.ofOperations (← get).ops
  modify fun state => { state with graph := some graph, ops := [] }

/-- Move relaxed guards in front of the early exit. -/
def pullUpGuards : VectorizerM Unit := do
  match (← get).graph with
  | none => pure ()
  | some graph =>
    let (moved, graph) := graph.pullUpRelaxedGuards
    modify fun state => { state with graph := some graph }
    unless moved do Work.reject .impureGuard

def updatePacks (change : PackSet → DependencyGraph → Target → Except Fault PackSet) :
    VectorizerM Unit := do
  let state ← get
  match state.graph with
  | none => pure ()
  | some graph =>
    let packs ← change state.packs graph state.target
    set { state with packs := packs }

def seedPacks : VectorizerM Unit :=
  updatePacks fun packs graph target => .ok (packs.seed graph target)

def growPacks : VectorizerM Unit :=
  updatePacks PackSet.growChecked

def combinePacks : VectorizerM Unit := do
  let state ← get
  match state.graph with
  | none => Work.reject .noPacks
  | some graph =>
    match Packing.combine ⟨graph, state.packs⟩ with
    | .ok _ packing => set { state with graph := some packing.graph, packs := packing.packs }
    | .error fault packing =>
      set { state with graph := some packing.graph, packs := packing.packs }
      throw fault

def collapseGuards : VectorizerM Unit := do
  let state ← get
  let (ops, dropped) ← GuardCollapse.collapse state.ops
  set { state with
    ops := ops
    stats := { state.stats with collapsed := state.stats.collapsed + dropped } }

/-- Reject a loop that cannot be vectorized as it stands, and fix how far it is unrolled. -/
def prepare : VectorizerM Unit := do
  let state ← get
  unless state.config.enabled do Work.reject .disabled
  unless Trace.isLoopBody state.ops do Work.reject .notALoop
  findSmallest
  if state.target.registerSize = 0 then Work.reject .noVectorRegisters
  if (← get).smallest = 0 then Work.reject .noArrayAccess
  modify fun state => { state with unrollCount := state.unrollCountFor state.target.registerSize }
  let count := (← get).unrollCount
  if state.config.maxUnroll < count then Work.reject (.unrollTooLarge count)

def run : VectorizerM Unit := do
  prepare
  relaxGuards
  unroll (← get).unrollCount
  buildGraph
  pullUpGuards
  seedPacks
  growPacks
  combinePacks
  scheduleVectors
  if (← get).config.collapsesGuards then collapseGuards
  modify fun state =>
    { state with stats := { state.stats with vectorized := state.stats.vectorized + 1 } }

end Vectorizer

def Trace.vectorize (trace : Trace) (target : Target) (config : VectorizeConfig) :
    Except Fault (Trace × VectorizeStats) :=
  match Vectorizer.run (.start target config trace) with
  | .ok _ state => .ok ({ trace with ops := state.ops, supply := state.supply }, state.stats)
  | .error fault _ => .error fault

end LinearTrace
