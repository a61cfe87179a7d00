import LinearTrace.Pipeline
import LinearTrace.Report

/-!
# Reports on vectorization and pipelines
-/

namespace LinearTrace.Report

instance : Reports VectorizeStats where
  report stats := .record [
    field "analyzed" stats.analyzed, field "vectorized" stats.vectorized,
    field "rejected" stats.rejected, field "packs" stats.packs,
    field "vector_ops" stats.vectorOps, field "unpacks" stats.unpacks,
    field "relaxed" stats.relaxed, field "collapsed" stats.collapsed,
    field "rate" (Shorthand.hexadecimal 8 stats.successRate.toBits.toNat)]

instance : Reports VectorizeConfig where
  report config := .list [
    report config.enabled, report config.maxUnroll, report config.maxPaths,
    report config.collapsesGuards]

instance : Reports PassEntry where
  report entry := .list [
    report entry.pass.name, report entry.phase.name, report entry.phase.iterates,
    report entry.runs, report entry.changes]

def ofRun (stats : PipelineStats) (trace : Trace) : Report :=
  .record [
    field "iterations" stats.iterations, field "phases" stats.phases,
    field "initial" stats.initialSize, field "final" stats.finalSize,
    field "ratio" stats.sizeRatio, field "trace" trace]

end LinearTrace.Report
