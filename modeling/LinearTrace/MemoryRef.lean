import LinearTrace.IndexVar

/-!
# Memory references

The place that an array access touches, and when two accesses are neighbours or
may touch the same item. Distances are words; the distance that has no absolute
value aborts the run.
-/

namespace LinearTrace

/-- The place that an array access touches. -/
structure MemoryRef where
  array : Value
  descriptor : ArrayDescriptor
  index : IndexVar
  /-- The index counts bytes instead of items. -/
  byteIndexed : Bool
  deriving DecidableEq, Inhabited, Repr

namespace MemoryRef

/-- The reference of an array access, whose operands are the array and the index. -/
def ofOperation? (table : IndexTable) (op : Operation) : Option MemoryRef :=
  match op.args with
  | array :: index :: _ => do
      guard op.opcode.isArrayAccess
      let descriptor ← op.array?
      let index ← IndexVar.ofValue? table index
      return ⟨array, descriptor, index, op.opcode.traits.byteIndexed⟩
  | _ => none

/-- The distance between the indices of neighbouring items. -/
def stride (ref : MemoryRef) : Int64 :=
  if ref.byteIndexed then Int64.ofNat ref.descriptor.itemSize else 1

/-- The same array under the same descriptor. -/
def sameArray (left right : MemoryRef) : Bool :=
  left.array == right.array && left.descriptor == right.descriptor

/-- The same array at indices that differ by a constant. -/
def sameLine (left right : MemoryRef) : Bool :=
  left.sameArray right && left.index.sameBase right.index && left.index.sameFactor right.index

def magnitude (distance : Int64) : Except Fault Int64 :=
  match Word.abs? distance with
  | some value => .ok value
  | none => .error (.abort .overflow)

def isAdjacentTo (left right : MemoryRef) : Except Fault Bool :=
  match left.sameLine right, left.index.distance? right.index with
  | true, some distance => do return (← magnitude distance) == left.stride
  | _, _ => .ok false

/-- The second reference touches the item directly after the first one's. -/
def isAdjacentAfter (first second : MemoryRef) : Bool :=
  first.sameLine second && second.index.distance? first.index == some first.stride

/-- The references may touch the same item. Two operands may name one array, so only a
constant gap between the indices keeps accesses under one descriptor apart. -/
def mayAlias (left right : MemoryRef) : Except Fault Bool :=
  if left.descriptor ≠ right.descriptor then .ok false
  else if left.byteIndexed != right.byteIndexed || !left.index.sameBase right.index
      || !left.index.sameFactor right.index then .ok true
  else
    match left.index.distance? right.index with
    | some distance => do return decide ((← magnitude distance) < left.stride)
    | none => .ok true

/-- The text of a reference, such as `p1[i0 + 1]`. -/
def text (ref : MemoryRef) : String :=
  ref.array.text ++ "[" ++ ref.index.text ++ "]"

end MemoryRef

end LinearTrace
