import LinearTrace.Trace.Builder
import LinearTrace.Report.Detail
import LinearTrace.Report.Facts
import LinearTrace.Report.Graph
import LinearTrace.Report.Pipeline
import LinearTrace.Proofs.Peephole.Contradiction
import LinearTrace.Proofs.Vectorize.GuardsFirst
import LinearTrace.Proofs.Pack.Sound
import LinearTrace.Proofs.Vectorize.EffectOrder
import LinearTrace.Proofs.Vectorize.RelaxedLoop
import LinearTrace.Proofs.Lowering.LanewisePack
import LinearTrace.Proofs.Vectorize.RegisterFit
import LinearTrace.Proofs.Peephole.ChangeFlag
import LinearTrace.Proofs.Peephole.OwnPosition
import LinearTrace.Proofs.Interval.Monotone
import LinearTrace.Proofs.Vectorize.CollapsedValues
import LinearTrace.Proofs.Facts.Requests
import LinearTrace.Proofs.Peephole.Warranted
import LinearTrace.Proofs.Pipeline
