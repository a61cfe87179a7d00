import LinearTrace.Pass

/-!
# Pipelines

A pipeline runs its passes phase by phase. The passes of the first phase are
repeated until none of them changes anything, those of the second run once. A
pass that rejects a trace leaves no mark on it; a contradiction ends the run.
-/

namespace LinearTrace

inductive Phase where
  | simplify
  | vectorize
  deriving DecidableEq, Inhabited, Repr

def Phase.all : List Phase :=
  [.simplify, .vectorize]

def Phase.name : Phase → String
  | .simplify => "Rewrite"
  | .vectorize => "Vectorize"

def Phase.iterates : Phase → Bool
  | .simplify => true
  | .vectorize => false

structure PassEntry where
  pass : Pass
  phase : Phase
  enabled : Bool := true
  runs : Nat := 0
  changes : Nat := 0
  /-- What the pass has become after the given runs, the latest first. -/
  later : List (Target × Trace) → Pass := fun _ => pass
  seen : List (Target × Trace) := []

/-- The settings of a pipeline. -/
structure PipelineConfig where
  maxIterations : Nat := 2
  simplifies : Bool := true
  vectorizes : Bool := true
  vectorize : VectorizeConfig := {}
  deriving DecidableEq, Inhabited, Repr

namespace PipelineConfig

/-- Simplify once. -/
def minimal : PipelineConfig :=
  { maxIterations := 1, vectorizes := false, vectorize := .disabled }

/-- Simplify up to four times and vectorize wide. -/
def full : PipelineConfig :=
  { maxIterations := 4, vectorize := .aggressive }

end PipelineConfig

/-- What one run of a pipeline did. -/
structure PipelineStats where
  iterations : Nat
  phases : Nat
  initialSize : Nat
  finalSize : Nat
  deriving DecidableEq, Inhabited, Repr

/-- The final size over the initial one; one for an empty trace. -/
def PipelineStats.sizeRatio (stats : PipelineStats) : Binary64 :=
  if stats.initialSize = 0 then .one
  else .ofFloat (Float.ofNat stats.finalSize / Float.ofNat stats.initialSize)

/-- Passes with what they did so far. -/
structure Pipeline where
  config : PipelineConfig
  entries : List PassEntry := []
  /-- The iterations of all runs that came to their end. -/
  iterations : Nat := 0

/-- The passes of a pipeline and the trace they work on. -/
structure PipelineRun where
  entries : List PassEntry
  trace : Trace

namespace PassEntry

/-- Run one pass. What a rejected trace was before is kept, and only an abort is not counted. -/
def run (entry : PassEntry) (target : Target) (trace : Trace) :
    PassEntry × Trace × Except Fault Bool :=
  let counted := { entry with runs := entry.runs + 1, seen := (target, trace) :: entry.seen }
  match (entry.later entry.seen).run target trace with
  | .ok true trace => ({ counted with changes := entry.changes + 1 }, trace, .ok true)
  | .ok false trace => (counted, trace, .ok false)
  | .error (.rejection _) _ => (counted, trace, .ok false)
  | .error (.contradiction cause) trace => (counted, trace, .error (.contradiction cause))
  | .error (.abort cause) trace => (entry, trace, .error (.abort cause))

end PassEntry

namespace PipelineRun

/-- Run the enabled passes of a phase in order; the answer is whether one changed something. -/
def round (target : Target) (phase : Phase) :
    List PassEntry → Trace → PipelineRun × Except Fault Bool
  | [], trace => (⟨[], trace⟩, .ok false)
  | entry :: rest, trace =>
    if entry.phase = phase ∧ entry.enabled then
      match entry.run target trace with
      | (entry, trace, .error fault) => (⟨entry :: rest, trace⟩, .error fault)
      | (entry, trace, .ok changed) =>
        let (run, outcome) := round target phase rest trace
        ({ run with entries := entry :: run.entries }, outcome.map (changed || ·))
    else
      let (run, outcome) := round target phase rest trace
      ({ run with entries := entry :: run.entries }, outcome)

/-- Repeat a phase until a round changes nothing, at most `limit` times; the answer is the number
of rounds. -/
def repeatPhase (target : Target) (phase : Phase) :
    Nat → PipelineRun → PipelineRun × Except Fault Nat
  | 0, run => (run, .ok 0)
  | limit + 1, run =>
    match round target phase run.entries run.trace with
    | (run, .error fault) => (run, .error fault)
    | (run, .ok false) => (run, .ok 1)
    | (run, .ok true) =>
      let (run, outcome) := repeatPhase target phase limit run
      (run, outcome.map (· + 1))

def limitOf (config : PipelineConfig) (phase : Phase) : Nat :=
  if phase.iterates then max config.maxIterations 1 else 1

def runPhases (target : Target) (config : PipelineConfig) :
    List Phase → PipelineRun → PipelineRun × Except Fault Nat
  | [], run => (run, .ok 0)
  | phase :: rest, run =>
    match repeatPhase target phase (limitOf config phase) run with
    | (run, .error fault) => (run, .error fault)
    | (run, .ok rounds) =>
      let (run, outcome) := runPhases target config rest run
      (run, outcome.map (rounds + ·))

end PipelineRun

namespace Pipeline

/-- Register a pass, which may keep what it likes from run to run. -/
def register (pipeline : Pipeline) (pass : Pass) (phase : Phase)
    (later : List (Target × Trace) → Pass := fun _ => pass) : Pipeline :=
  { pipeline with entries := pipeline.entries ++ [{ pass := pass, phase := phase, later := later }] }

def ofConfig (config : PipelineConfig) : Pipeline :=
  let pipeline : Pipeline := { config := config }
  let pipeline := if config.simplifies then pipeline.register .simplify .simplify else pipeline
  if config.vectorizes then pipeline.register (.vectorize config.vectorize) .vectorize
  else pipeline

def setEnabled (pipeline : Pipeline) (name : String) (enabled : Bool) : Pipeline :=
  { pipeline with
    entries := pipeline.entries.map fun entry =>
      if entry.pass.name = name then { entry with enabled := enabled } else entry }

def run (pipeline : Pipeline) (target : Target) (trace : Trace) :
    Pipeline × Except Fault (PipelineStats × Trace) :=
  let (run, outcome) := PipelineRun.runPhases target pipeline.config Phase.all
    ⟨pipeline.entries, trace⟩
  match outcome with
  | .error fault => ({ pipeline with entries := run.entries }, .error fault)
  | .ok iterations =>
    let stats : PipelineStats := {
      iterations := iterations, phases := Phase.all.length
      initialSize := trace.ops.length, finalSize := run.trace.ops.length }
    ({ pipeline with
        entries := run.entries, iterations := pipeline.iterations + iterations },
      .ok (stats, run.trace))

end Pipeline

def Trace.optimize (trace : Trace) (target : Target) (config : PipelineConfig) :
    Except Fault (PipelineStats × Trace) :=
  ((Pipeline.ofConfig config).run target trace).2

end LinearTrace
