import LinearTrace.Report
import LinearTrace.Peephole

/-!
# Reports on facts and simplification
-/

namespace LinearTrace.Report

instance : Reports PointerFact where
  report fact := .record [
    field "nullness" fact.nullness.name, field "is_null" fact.isNull,
    field "is_nonnull" fact.isNonnull, field "class" fact.knownClass, field "tid" fact.typeId,
    field "obj" fact.isObject, field "precise" fact.isPrecise, field "guard" fact.lastGuard]

instance : Reports PeepholeStats where
  report stats := .record [
    field "in" stats.opsIn, field "out" stats.opsOut, field "reduced" stats.reduced,
    field "guards_removed" stats.guardsRemoved, field "guards_merged" stats.guardsMerged,
    field "calls_removed" stats.callsRemoved, field "removed" stats.removed]

def ofFacts (facts : Facts) (value : Value) : Report :=
  .record [
    field "repl" (facts.resolve value), field "const" (facts.constant? value),
    field "int" (facts.word? value), field "bound" (facts.interval value),
    field "ptr" (facts.pointer value)]

/-- Where a walk stands after an operation, and what it knows about the operation's result. -/
def ofWalk (walk : Peephole) (op : Operation) : Report :=
  let stats := walk.stats
  .record (
    [field "n" walk.facts.nextPosition, field "removed" walk.facts.lastRemoved,
      field "stats"
        [stats.reduced, stats.guardsRemoved, stats.guardsMerged, stats.callsRemoved]]
    ++ match op.result with
      | none => []
      | some box =>
        [field "repl" (walk.facts.resolve (.box box)),
          field "bound" (walk.facts.interval (.box box))])

end LinearTrace.Report
