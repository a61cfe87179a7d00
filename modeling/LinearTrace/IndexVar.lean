import Std.Data.HashMap
import LinearTrace.Fault

/-!
# Affine indices

An index of an array access is a box, so whether two accesses are neighbours
cannot be read off their operands. An integer box that is computed from another
box by constants is therefore described as
`base * multiplier / divisor + offset`.
-/

namespace LinearTrace

/-- An index `base * multiplier / divisor + offset`. -/
structure IndexVar where
  /-- The box the index is computed from; none for a constant index. -/
  base : Option Box
  multiplier : Int64 := 1
  divisor : Int64 := 1
  offset : Int64 := 0
  deriving DecidableEq, Hashable, Inhabited, Repr

/-- The boxes of a list of operations that are affine in another box. -/
abbrev IndexTable := Std.HashMap Box IndexVar

namespace IndexVar

def ofBox (box : Box) : IndexVar :=
  { base := some box }

def ofWord (word : Int64) : IndexVar :=
  { base := none, offset := word }

def lookup (table : IndexTable) (box : Box) : IndexVar :=
  table.getD box (ofBox box)

/-- The index that an operand stands for; only integers are indices. -/
def ofValue? (table : IndexTable) : Value → Option IndexVar
  | .box box => if box.type.isInt then some (lookup table box) else none
  | .const literal => literal.int?.map ofWord

def sameBase (left right : IndexVar) : Bool :=
  left.base == right.base

def sameFactor (left right : IndexVar) : Bool :=
  left.multiplier == right.multiplier && left.divisor == right.divisor

/-- The difference of the offsets, unless it overflows. -/
def distance? (left right : IndexVar) : Option Int64 :=
  Word.sub? left.offset right.offset

/-- The index is its box plus a constant. -/
def isUnit (index : IndexVar) : Bool :=
  index.multiplier == 1 && index.divisor == 1

def add? (index : IndexVar) (word : Int64) : Option IndexVar := do
  return { index with offset := ← Word.add? index.offset word }

def sub? (index : IndexVar) (word : Int64) : Option IndexVar := do
  return { index with offset := ← Word.sub? index.offset word }

def mul? (index : IndexVar) (word : Int64) : Option IndexVar := do
  return { index with
    multiplier := ← Word.mul? index.multiplier word
    offset := ← Word.mul? index.offset word }

/-- Divide by a positive constant that divides the offset, unless something overflows. -/
def div? (index : IndexVar) (word : Int64) : Option IndexVar := do
  if word ≤ 0 ∨ index.offset % word ≠ 0 then none
  else
    return { index with
      divisor := ← Word.mul? index.divisor word
      offset := index.offset / word }

/-- Turn a sum or difference that computes this index into the sum of base and offset,
which cuts the chain of boxes in between. -/
def adapt (index : IndexVar) (op : Operation) : Operation :=
  match op.opcode, index.base with
  | .intAdd, some base | .intSub, some base =>
    if index.isUnit && index.offset != 0 && op.result != some base then
      op.recode .intAdd [.box base, .int index.offset]
    else
      op
  | _, _ => op

/-- The text of an index, such as `i0 * 2 / 1 + 3`. -/
def text (index : IndexVar) : String :=
  let offset := toString index.offset.toInt
  match index.base with
  | none => offset
  | some box =>
    if index.isUnit then box.text ++ " + " ++ offset
    else
      box.text ++ " * " ++ toString index.multiplier.toInt ++ " / "
        ++ toString index.divisor.toInt ++ " + " ++ offset

end IndexVar

namespace IndexTable

/-- The box and the constant among two operands, and whether the constant comes first. -/
def boxAndWord? : Value → Value → Option (Box × Int64 × Bool)
  | .box box, .const literal => literal.int?.map fun word => (box, word, false)
  | .const literal, .box box => literal.int?.map fun word => (box, word, true)
  | _, _ => none

def derive? (table : IndexTable) (op : Operation) : Option IndexVar := do
  let [left, right] := op.args | none
  let (box, word, wordFirst) ← boxAndWord? left right
  let index := IndexVar.lookup table box
  match op.opcode, wordFirst with
  | .intAdd, _ => index.add? word
  | .intSub, false => index.sub? word
  | .intMul, _ => index.mul? word
  | .intFloorDiv, false => index.div? word
  | _, _ => none

def extend (table : IndexTable) (op : Operation) : IndexTable :=
  match op.result, table.derive? op with
  | some result, some index => table.insert result index
  | _, _ => table

def ofOperations (ops : List Operation) : IndexTable :=
  ops.foldl extend ∅

end IndexTable

end LinearTrace
