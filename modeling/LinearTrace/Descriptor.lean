import LinearTrace.Value

/-!
# Descriptors

A descriptor says what an operation cannot say through its operands: the layout
of array items, the shape of an allocation, the effects of a call, the way a
guard resumes, the loop a jump goes to.
-/

namespace LinearTrace

inductive ItemKind where
  | int
  | float
  | ref
  deriving DecidableEq, Hashable, Inhabited, Repr

/-- The layout of an array's items. -/
structure ArrayDescriptor where
  id : Nat
  itemSize : Nat
  kind : ItemKind
  signed : Bool
  /-- The items are structures stored in place. -/
  isStruct : Bool := false
  deriving DecidableEq, Hashable, Inhabited, Repr

namespace ArrayDescriptor

def ints (id itemSize : Nat) : ArrayDescriptor :=
  { id, itemSize, kind := .int, signed := true }

def uints (id itemSize : Nat) : ArrayDescriptor :=
  { id, itemSize, kind := .int, signed := false }

def floats (id itemSize : Nat) : ArrayDescriptor :=
  { id, itemSize, kind := .float, signed := true }

def refs (id : Nat) : ArrayDescriptor :=
  { id, itemSize := 8, kind := .ref, signed := false }

def structs (id itemSize : Nat) : ArrayDescriptor :=
  { id, itemSize, kind := .int, signed := false, isStruct := true }

def itemType (descriptor : ArrayDescriptor) : ValueType :=
  match descriptor.kind with
  | .int => .int
  | .float => .float
  | .ref => .ref

end ArrayDescriptor

/-- The shape of an allocation of fixed size. -/
structure SizeDescriptor where
  typeId : Nat
  vtable : Option UInt64
  deriving DecidableEq, Hashable, Inhabited, Repr

/-- A meaning that a call target may have beyond being called. -/
inductive CallMeaning where
  | none
  /-- Copies `length` items from `source` at `sourceStart` to `dest` at `destStart`. -/
  | arrayCopy
  deriving DecidableEq, Hashable, Inhabited, Repr

/-- The effects of a call. -/
structure CallDescriptor where
  meaning : CallMeaning := .none
  writtenArrays : List ArrayDescriptor := []
  canRaise : Bool := false
  deriving DecidableEq, Hashable, Inhabited, Repr

def CallDescriptor.arrayCopy (array : ArrayDescriptor) : CallDescriptor :=
  { meaning := .arrayCopy, writtenArrays := [array] }

/-- Where execution goes on when a guard fails. -/
inductive Resume where
  /-- Anywhere the snapshot of the guard describes. -/
  | guard
  /-- Exactly at the guard's position, so the guard cannot be merged away. -/
  | atPosition
  /-- At the start of the current iteration. -/
  | atLoopHeader
  deriving DecidableEq, Hashable, Inhabited, Repr

def Resume.text : Resume → String
  | .guard => "Guard"
  | .atPosition => "AtPosition"
  | .atLoopHeader => "AtLoopHeader"

inductive Descriptor where
  | array (descriptor : ArrayDescriptor)
  | size (descriptor : SizeDescriptor)
  | call (descriptor : CallDescriptor)
  | guard (resume : Resume)
  | target (token : Nat)
  deriving DecidableEq, Hashable, Inhabited, Repr

namespace Descriptor

def array? : Descriptor → Option ArrayDescriptor
  | .array descriptor => some descriptor
  | _ => none

def size? : Descriptor → Option SizeDescriptor
  | .size descriptor => some descriptor
  | _ => none

def call? : Descriptor → Option CallDescriptor
  | .call descriptor => some descriptor
  | _ => none

def resume? : Descriptor → Option Resume
  | .guard resume => some resume
  | _ => none

def target? : Descriptor → Option Nat
  | .target token => some token
  | _ => none

end Descriptor

end LinearTrace
