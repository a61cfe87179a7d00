import LinearTrace.Facts.Emit

/-!
# The state of the peephole simplifier

The simplifier walks a trace once, front to back. Each operation is dropped,
made cheaper, or emitted as it is.
-/

namespace LinearTrace

/-- What one walk of the simplifier did. -/
structure PeepholeStats where
  opsIn : Nat := 0
  opsOut : Nat := 0
  /-- Operations that became cheaper or an existing value. -/
  reduced : Nat := 0
  guardsRemoved : Nat := 0
  guardsMerged : Nat := 0
  callsRemoved : Nat := 0
  deriving DecidableEq, Inhabited, Repr

namespace PeepholeStats

def removed (stats : PeepholeStats) : Nat :=
  stats.opsIn - stats.opsOut

def merge (left right : PeepholeStats) : PeepholeStats where
  opsIn := left.opsIn + right.opsIn
  opsOut := left.opsOut + right.opsOut
  reduced := left.reduced + right.reduced
  guardsRemoved := left.guardsRemoved + right.guardsRemoved
  guardsMerged := left.guardsMerged + right.guardsMerged
  callsRemoved := left.callsRemoved + right.callsRemoved

def changed (stats : PeepholeStats) : Bool :=
  stats.opsIn != stats.opsOut || decide (0 < stats.reduced) || decide (0 < stats.guardsMerged)

end PeepholeStats

/-- The state of a walk. -/
structure Peephole where
  facts : Facts
  /-- Results of calls that do not vary within the loop, by call target. -/
  invariantCalls : Std.HashMap Const (Option Box) := ∅
  stats : PeepholeStats := {}
  deriving Inhabited

abbrev PeepholeM := Work Peephole

namespace Peephole

def start (target : Target) (trace : Trace) : Peephole :=
  { facts := .start target trace }

def finalStats (walk : Peephole) : PeepholeStats :=
  { walk.stats with opsOut := walk.facts.output.size }

def currentFacts : PeepholeM Facts :=
  return (← get).facts

/-- Work on the facts alone. -/
def onFacts {α : Type} (work : FactsM α) : PeepholeM α
  | ⟨facts, invariantCalls, stats⟩ =>
    match work facts with
    | .ok value facts => .ok value ⟨facts, invariantCalls, stats⟩
    | .error fault facts => .error fault ⟨facts, invariantCalls, stats⟩

def updateFacts (update : Facts → Facts) : PeepholeM Unit :=
  modify fun walk => { walk with facts := update walk.facts }

def updateStats (update : PeepholeStats → PeepholeStats) : PeepholeM Unit :=
  modify fun walk => { walk with stats := update walk.stats }

def countReduced : PeepholeM Unit :=
  updateStats fun stats => { stats with reduced := stats.reduced + 1 }

def countGuardRemoved : PeepholeM Unit :=
  updateStats fun stats => { stats with guardsRemoved := stats.guardsRemoved + 1 }

def countGuardMerged : PeepholeM Unit :=
  updateStats fun stats => { stats with guardsMerged := stats.guardsMerged + 1 }

def dropCall : PeepholeM Unit := do
  updateFacts Facts.markRemoved
  updateStats fun stats => { stats with callsRemoved := stats.callsRemoved + 1 }

def emit (op : Operation) : PeepholeM Unit := do
  let _ ← onFacts (Facts.emit op)

/-- Emit an operation and make its reverse forms known if it was appended. -/
def emitReversible (op : Operation) : PeepholeM Unit := do
  if ← onFacts (Facts.emit op) then
    onFacts Facts.recordReverseOfLast

end Peephole

end LinearTrace
