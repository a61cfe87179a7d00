import LinearTrace.Descriptor

/-!
# Lane types

The type that the lanes of a vector operation have in common. While packs are
formed it may be partly open: the kind not decided, or the size not known.
-/

namespace LinearTrace

/-- The type of the lanes of a pack. -/
structure LaneType where
  /-- What the lanes hold; none while undecided. -/
  kind : Option LaneKind
  /-- Bytes of a lane; zero stands for the size of the pack. -/
  size : Nat
  signed : Bool := true
  deriving DecidableEq, Inhabited, Repr

namespace LaneType

def unknown : LaneType :=
  ⟨none, 0, true⟩

/-- Integers of the pack's size. -/
def anyInt : LaneType :=
  ⟨some .int, 0, true⟩

/-- Floats of the pack's size. -/
def anyFloat : LaneType :=
  ⟨some .float, 0, true⟩

def single : LaneType :=
  ⟨some .float, 4, true⟩

def double : LaneType :=
  ⟨some .float, 8, true⟩

def word : LaneType :=
  ⟨some .int, 8, true⟩

/-- The type of the items of an array; references and structures have no lanes. -/
def ofArray (descriptor : ArrayDescriptor) : LaneType where
  kind :=
    match descriptor.kind, descriptor.isStruct with
    | .int, false => some .int
    | .float, false => some .float
    | _, _ => none
  size := descriptor.itemSize
  signed := descriptor.signed

def ofShape (shape : VectorShape) : LaneType :=
  ⟨some shape.kind, shape.itemSize.toNat, shape.signed⟩

def isValid (type : LaneType) : Bool :=
  type.kind.isSome && decide (0 < type.size)

/-- Take the kind, and with it the sign, from another type when it is open. -/
def orKindOf (type other : LaneType) : LaneType :=
  if type.kind.isNone then { type with kind := other.kind, signed := other.signed } else type

/-- Take the size, and with it the sign, from another type when it is open. -/
def orSizeOf (type other : LaneType) : LaneType :=
  if type.size = 0 then { type with size := other.size, signed := other.signed } else type

/-- Fill in what a type leaves open from the type of the pack. -/
def resolve (type pack : LaneType) : LaneType :=
  (type.orKindOf pack).orSizeOf pack

/-- Widen a type so that it covers the lanes of an input vector. -/
def widen (type : LaneType) (shape : VectorShape) : LaneType :=
  let type := type.orKindOf (ofShape shape)
  { type with size := max type.size shape.itemSize.toNat }

/-- The shape of a vector of `count` lanes; an undecided kind counts as integers. -/
def shape (type : LaneType) (count : Nat) : VectorShape :=
  ⟨type.kind.getD .int, UInt16.ofNat count, UInt8.ofNat type.size, type.signed⟩

def vectorType (type : LaneType) (count : Nat) : ValueType :=
  .vector (type.shape count)

def kindLetter : Option LaneKind → String
  | some .int => "i"
  | some .float => "f"
  | none => "?"

/-- The text of a lane type, such as `i32`. -/
def text (type : LaneType) : String :=
  kindLetter type.kind ++ toString (type.size * 8)

end LaneType

end LinearTrace
