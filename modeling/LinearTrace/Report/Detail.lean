import LinearTrace.Interval.Transfer
import LinearTrace.Report
import LinearTrace.Target

/-!
# Detailed reports

Everything that can be asked about a value, a type, a descriptor, an operation or
two intervals.
-/

namespace LinearTrace.Report

/-- The bits of a constant; those of a not-a-number pattern are not told apart. -/
def bitsOf (literal : Const) : Report :=
  if (literal.float?.map Binary64.isNaN).getD false then .text "nan" else report literal.bits

def ofValue (value : Value) : Report :=
  .record (
    [field "value" value, field "text" value.text, field "ty" value.type]
    ++ match value with
      | .box _ => []
      | .const literal =>
        [field "int" literal.int?, field "float" literal.float?, field "ref" literal.ref?,
          field "address" literal.address?, field "bits" (bitsOf literal),
          field "nonnull" literal.isNonnull])

def ofType (type : ValueType) : Report :=
  .record (
    [field "ty" type, field "prefix" type.letter, field "int" type.isInt,
      field "float" type.isFloat, field "ref" type.isRef, field "vector" type.isVector]
    ++ match type.shape? with
      | none => []
      | some shape =>
        [field "text" shape.text, field "bytes" shape.byteSize,
          field "count3" (shape.withCount 3), field "size2" (shape.withItemSize 2)])

def ofDescriptor (descriptor : Descriptor) : Report :=
  .record (
    [field "text" descriptor, field "array" descriptor.array?.isSome,
      field "size" descriptor.size?.isSome, field "call" descriptor.call?.isSome,
      field "guard" descriptor.resume?, field "target" descriptor.target?]
    ++ match descriptor.array? with
      | none => []
      | some array =>
        [field "pointers" (array.kind == .ref), field "floats" (array.kind == .float),
          field "structs" array.isStruct, field "item" array.itemType])

def ofOperation (op : Operation) : Report :=
  .record [
    field "text" op.text, field "n" op.args.length, field "guard" op.isGuard,
    field "resume" op.resume, field "early" op.exitsEarly, field "fail" op.failArgs,
    field "uses" op.uses, field "array" op.array?, field "call" op.call?.isSome,
    field "copy" (op.recode .sameAs op.args.reverse)]

def ofAddress (target : Target) (address : UInt64) : Report :=
  .record [
    field "class" (target.classOf? address), field "obj" (target.isObject address),
    field "tid" (target.typeIdOf? address), field "range" (target.subclassRange? address)]

def ofIntervals (left right : Interval) : Report :=
  .record [
    field "text" left.text, field "constant" left.constant?,
    field "is_constant" left.isConstant, field "unbounded" left.isUnbounded,
    field "bool" left.isBoolean, field "nonneg" left.isNonnegative,
    field "nonzero" left.excludesZero, field "equal" (left.isExactly right.lower),
    field "contains" (left.contains right.lower, left.contains right.upper),
    field "lt" (left.allLt right), field "le" (left.allLe right),
    field "gt" (left.allGt right), field "ge" (left.allGe right),
    field "within" (left.isWithin right), field "union" (left.union right),
    field "add" (left.add right), field "sub" (left.sub right), field "mul" (left.mul right),
    field "neg" left.neg, field "and" (left.and right), field "or" (left.or right),
    field "xor" (left.xor right), field "lshift" (left.leftShift right),
    field "rshift" (left.rightShift right), field "uint_rshift" (left.uintRightShift right),
    field "floordiv" (left.floorDiv right), field "modulo" (left.modulo right),
    field "signext" (left.signExtend right)]

end LinearTrace.Report
