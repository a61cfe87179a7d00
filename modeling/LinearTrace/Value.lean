import LinearTrace.Decimal.Text

/-!
# Values of a trace

Every operation reads values and defines at most one box. A value is a box or a
constant; a box is known by its number together with its type. Equality of
values is identity: float constants are told apart by their bits.
-/

namespace LinearTrace

inductive LaneKind where
  | int
  | float
  deriving DecidableEq, Hashable, Inhabited, Repr

structure VectorShape where
  kind : LaneKind
  count : UInt16
  itemSize : UInt8
  signed : Bool
  deriving DecidableEq, Hashable, Inhabited, Repr

namespace VectorShape

def byteSize (shape : VectorShape) : Nat :=
  shape.count.toNat * shape.itemSize.toNat

def withCount (shape : VectorShape) (count : UInt16) : VectorShape :=
  { shape with count := count }

def withItemSize (shape : VectorShape) (itemSize : UInt8) : VectorShape :=
  { shape with itemSize := itemSize }

/-- The text of a shape, such as `<4xi32>`. -/
def text (shape : VectorShape) : String :=
  let letter :=
    match shape.kind, shape.signed with
    | .int, true => "i"
    | .int, false => "u"
    | .float, _ => "f"
  "<" ++ toString shape.count.toNat ++ "x" ++ letter ++ toString (shape.itemSize.toNat * 8) ++ ">"

end VectorShape

inductive ValueType where
  | int
  | float
  | ref
  | vector (shape : VectorShape)
  deriving DecidableEq, Hashable, Inhabited, Repr

namespace ValueType

def isInt : ValueType → Bool
  | .int => true
  | _ => false

def isFloat : ValueType → Bool
  | .float => true
  | _ => false

def isRef : ValueType → Bool
  | .ref => true
  | _ => false

def isVector : ValueType → Bool
  | .vector _ => true
  | _ => false

def shape? : ValueType → Option VectorShape
  | .vector shape => some shape
  | _ => none

/-- The letter in front of a box's number. -/
def letter : ValueType → String
  | .int => "i"
  | .float => "f"
  | .ref => "p"
  | .vector _ => "v"

end ValueType

/-- A box: an input of the trace or the result of one operation. -/
structure Box where
  id : Nat
  type : ValueType
  deriving DecidableEq, Hashable, Inhabited, Repr

def Box.text (box : Box) : String :=
  box.type.letter ++ toString box.id

def Box.shape? (box : Box) : Option VectorShape :=
  box.type.shape?

/-- The supply of fresh box numbers, which never runs out. -/
structure BoxSupply where
  next : Nat := 0
  deriving DecidableEq, Inhabited, Repr

namespace BoxSupply

def fresh (supply : BoxSupply) (type : ValueType) : Box × BoxSupply :=
  (⟨supply.next, type⟩, ⟨supply.next + 1⟩)

/-- Keep later boxes apart from `box`. -/
def reserve (supply : BoxSupply) (box : Box) : BoxSupply :=
  ⟨max supply.next (box.id + 1)⟩

end BoxSupply

/-- A constant operand. -/
inductive Const where
  | int (value : Int64)
  | float (value : Binary64)
  /-- The address of a heap object; address zero is the null reference. -/
  | ref (address : UInt64)
  deriving DecidableEq, Hashable, Inhabited, Repr

namespace Const

def null : Const :=
  .ref 0

def type : Const → ValueType
  | .int _ => .int
  | .float _ => .float
  | .ref _ => .ref

def int? : Const → Option Int64
  | .int value => some value
  | _ => none

def float? : Const → Option Binary64
  | .float value => some value
  | _ => none

def ref? : Const → Option UInt64
  | .ref address => some address
  | _ => none

/-- The constant as an address; classes are given as integers or as references. -/
def address? : Const → Option UInt64
  | .int value => some value.toUInt64
  | .ref address => some address
  | .float _ => none

def bits : Const → UInt64
  | .int value => value.toUInt64
  | .float value => value.bits
  | .ref address => address

/-- The constant is neither a null reference nor a zero. -/
def isNonnull : Const → Bool
  | .int value => value != 0
  | .float value => !value.isZero
  | .ref address => address != 0

/-- Numeric equality: float constants compare as numbers, all others by identity. -/
def numericEq : Const → Const → Bool
  | .float left, .float right => left.numericEq right
  | left, right => left == right

def hexadecimal (word : UInt64) : String :=
  String.ofList (Nat.toDigits 16 word.toNat)

def text : Const → String
  | .int value => toString value.toInt
  | .float value => value.text
  | .ref address => if address = 0 then "NULL" else "ConstPtr(0x" ++ hexadecimal address ++ ")"

end Const

/-- An operand of an operation. -/
inductive Value where
  | box (box : Box)
  | const (const : Const)
  deriving DecidableEq, Hashable, Inhabited, Repr

namespace Value

def int (value : Int64) : Value :=
  .const (.int value)

def count (value : Nat) : Value :=
  .int (Int64.ofNat value)

def box? : Value → Option Box
  | .box source => some source
  | .const _ => none

def const? : Value → Option Const
  | .box _ => none
  | .const literal => some literal

def isConst : Value → Bool
  | .box _ => false
  | .const _ => true

def type : Value → ValueType
  | .box source => source.type
  | .const literal => literal.type

def text : Value → String
  | .box source => source.text
  | .const literal => literal.text

end Value

end LinearTrace
