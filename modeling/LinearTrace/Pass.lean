import LinearTrace.Peephole.Walk
import LinearTrace.Vectorize

/-!
# Passes

A pass may change a trace and says whether it did. What it counts while doing so
is kept from run to run.
-/

namespace LinearTrace

/-- A named change of traces. -/
structure Pass where
  name : String
  run : Target → Work Trace Bool

namespace Pass

/-- Simplify a trace and count what was done. A trace that contradicts itself is gone. -/
def simplifyCounting (target : Target) : Work (Trace × PeepholeStats) Bool :=
  fun (trace, counted) =>
    match trace.simplify target with
    | .ok (simplified, stats) => .ok stats.changed (simplified, counted.merge stats)
    | .error fault => .error fault ({}, counted)

/-- Vectorize a loop and count what was done. A loop that is rejected stays as it is. -/
def vectorizeCounting (config : VectorizeConfig) (target : Target) :
    Work (Trace × VectorizeStats) Bool :=
  fun (trace, counted) =>
    let counted := { counted with analyzed := counted.analyzed + 1 }
    match trace.vectorize target config with
    | .ok (vectorized, stats) =>
      .ok true (vectorized, counted.merge { stats with analyzed := 0 })
    | .error (.rejection _) =>
      .ok false (trace, { counted with rejected := counted.rejected + 1 })
    | .error fault => .error fault (trace, counted)

/-- The pass that runs some work and forgets what it counted. -/
def ofCounting {σ : Type} (name : String) (counted : σ) (work : Target → Work (Trace × σ) Bool) :
    Pass where
  name := name
  run target trace :=
    match work target (trace, counted) with
    | .ok changed (trace, _) => .ok changed trace
    | .error fault (trace, _) => .error fault trace

def simplify : Pass :=
  ofCounting "rewrite" {} simplifyCounting

def vectorize (config : VectorizeConfig) : Pass :=
  ofCounting "vectorize" {} (vectorizeCounting config)

end Pass

end LinearTrace
