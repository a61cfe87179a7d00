import LinearTrace.Report
import LinearTrace.Dependency
import LinearTrace.Lowering.Signature
import LinearTrace.Schedule

/-!
# Reports on dependency graphs, packs and schedules
-/

namespace LinearTrace.Report

instance : Reports IndexVar where
  report index := .record [
    field "var" index.base, field "mul" index.multiplier, field "div" index.divisor,
    field "const" index.offset, field "text" index.text, field "unit" index.isUnit]

/-- The order of boxes in a report: by number, then by shorthand. -/
def boxOrder (left right : Box) : Bool :=
  decide (left.id < right.id)
    || (left.id == right.id && decide (left.shorthand ≤ right.shorthand))

instance : Reports IndexTable where
  report table := report (table.toList.mergeSort fun left right => boxOrder left.1 right.1)

instance : Reports EdgeKind := ⟨fun kind => .text kind.name⟩
instance : Reports Edge := ⟨fun edge => report (edge.node, edge.kind)⟩

instance : Reports MemoryRef where
  report ref := .list [report ref.text, report ref.stride.toInt, report ref.byteIndexed]

instance : Reports Node where
  report node := .record [
    field "out" node.provides, field "in" node.depends, field "prio" node.priority,
    field "mem" (node.memory.map MemoryRef.text), field "effect" node.hasSideEffect,
    field "relaxed" node.isRelaxed, field "pack" node.pack]

instance : Reports DependencyGraph where
  report graph := .record [
    field "nodes" graph.nodes.toList, field "guards" graph.guards,
    field "memory" graph.memoryNodes, field "label" graph.label,
    field "early_exit" graph.earlyExit, field "index" graph.indices, field "len" graph.size,
    field "empty" (graph.size == 0)]

instance : Reports Pack := ⟨fun pack => report (pack.members, pack.laneType)⟩
instance : Reports PackSet := ⟨fun set => report set.packs⟩

/-- A pack in view of a register size and of the packs beside it. -/
def ofPack (packs : List Pack) (registerSize : Nat) (pack : Pack) : Report :=
  .list [
    report pack.text, report pack.size, report pack.members.isEmpty, report pack.isPair,
    report pack.first, report pack.last, report pack.byteSize,
    report (pack.isOverloaded registerSize), report (packs.map pack.meets)]

instance : Reports Turn where
  report
    | .node position => report position
    | .pack position => .text ("pack" ++ toString position)

instance : Reports VectorSignature where
  report signature := .record [
    field "args" signature.operands, field "result" signature.result,
    field "from_descr" signature.fromArray, field "pass_offset" signature.passesOffset,
    field "result_size_arg" signature.resultSizeOperand]

def ofOpcode (opcode : Opcode) : Report :=
  let traits := opcode.traits
  .record [
    field "name" opcode, field "flags" traits.bits, field "guard" traits.guard,
    field "pure" traits.pure, field "no_side_effect" traits.noSideEffect,
    field "array" traits.array, field "load" traits.load, field "store" traits.store,
    field "byte_indexed" traits.byteIndexed, field "raw_access" opcode.isRawAccess,
    field "final" traits.final, field "call" traits.call, field "comparison" traits.comparison,
    field "vector" traits.vector, field "debug" opcode.isDebug,
    field "class" opcode.resultClass.name, field "vec" opcode.vectorForm?,
    field "inverse" opcode.inverse?, field "reflex" opcode.reflex?,
    field "shape" opcode.vectorSignature?]

end LinearTrace.Report
