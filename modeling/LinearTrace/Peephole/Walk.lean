import LinearTrace.Peephole.Arithmetic
import LinearTrace.Peephole.Call
import LinearTrace.Peephole.Guard

/-!
# Walking a trace

The simplifier's rule for every operation, and the walk over a whole trace.
-/

namespace LinearTrace.Peephole

def step (op : Operation) : PeepholeM Unit := do
  let facts ← currentFacts
  match facts.simplifyComparison? op with
  | some simplified => perform simplified
  | none =>
    match op.opcode with
    | .guardTrue => guardConstant op (.int 1)
    | .guardFalse => guardConstant op (.int 0)
    | .guardValue => guardValue op
    | .guardIsNull => guardIsNull op
    | .guardNonnull => guardNonnull op
    | .guardIsObject => guardIsObject op
    | .guardGcType => guardGcType op
    | .guardSubclass => guardSubclass op
    | .guardClass => guardClass op
    | .guardNonnullClass => guardNonnullClass op
    | .guardNoException => guardNoException op
    | .recordExactClass => recordExactClass op
    | .call => call op
    | .callPure => callPure op
    | .callLoopInvariant => callLoopInvariant op
    | .condCall => condCall op
    | _ => perform (← facts.simplify op)

def countedStep (op : Operation) : PeepholeM Unit := do
  updateStats fun stats => { stats with opsIn := stats.opsIn + 1 }
  step op

end LinearTrace.Peephole

namespace LinearTrace.Trace

/-- Simplify a whole trace. -/
def simplify (target : Target) (trace : Trace) : Except Fault (Trace × PeepholeStats) :=
  match (trace.ops.forM Peephole.countedStep) (.start target trace) with
  | .ok _ walk => .ok (walk.facts.toTrace, walk.finalStats)
  | .error fault _ => .error fault

end LinearTrace.Trace
