/-!
# Facts about references

What is known about a reference box: whether it is null, its class, its type
number, and the position of the emitted guard that established this and may
still be strengthened in place.
-/

namespace LinearTrace

inductive Nullness where
  | unknown
  | nonnull
  | null
  deriving DecidableEq, Inhabited, Repr

def Nullness.name : Nullness → String
  | .unknown => "unknown"
  | .nonnull => "nonnull"
  | .null => "null"

/-- Knowledge about a reference box. -/
structure PointerFact where
  nullness : Nullness := .unknown
  knownClass : Option UInt64 := none
  typeId : Option Nat := none
  isObject : Bool := false
  /-- The very allocation is known. -/
  isPrecise : Bool := false
  /-- Position of the guard that may still be strengthened. -/
  lastGuard : Option Nat := none
  deriving DecidableEq, Inhabited, Repr

namespace PointerFact

def null : PointerFact :=
  { nullness := .null }

def nonnull : PointerFact :=
  { nullness := .nonnull }

/-- The reference is a fresh allocation. -/
def allocation (typeId : Nat) (vtable : Option UInt64) : PointerFact :=
  { nullness := .nonnull, knownClass := vtable, typeId := some typeId, isObject := vtable.isSome,
    isPrecise := true }

def isNull (fact : PointerFact) : Bool :=
  fact.nullness == .null

def isNonnull (fact : PointerFact) : Bool :=
  fact.nullness == .nonnull

def withNonnull (fact : PointerFact) : PointerFact :=
  { fact with nullness := .nonnull }

/-- Learn the exact class, which implies an instance that is not null. -/
def withClass (fact : PointerFact) (vtable : UInt64) : PointerFact :=
  { fact with knownClass := some vtable, isObject := true, nullness := .nonnull }

def withLastGuard (fact : PointerFact) (position : Nat) : PointerFact :=
  { fact with lastGuard := some position }

def withoutLastGuard (fact : PointerFact) : PointerFact :=
  { fact with lastGuard := none }

end PointerFact

end LinearTrace
