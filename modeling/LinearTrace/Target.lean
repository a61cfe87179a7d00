import LinearTrace.Opcode.Traits

/-!
# Target machines

What the optimizer asks about the machine it compiles for: the width of its
vector registers, which operations it has in vector form, and what is known
about constant heap objects.
-/

namespace LinearTrace

/-- What is asked about a machine.  It may lack vector forms, but has no others. -/
structure Target where
  /-- Bytes of a vector register; zero when there are none. -/
  registerSize : Nat
  vectorForm? : Opcode → Option Opcode := Opcode.vectorForm?
  /-- The class of the constant object at an address. -/
  classOf? : UInt64 → Option UInt64 := fun _ => none
  typeIdOf? : UInt64 → Option Nat := fun _ => none
  /-- The range of subclass numbers of a class. -/
  subclassRange? : UInt64 → Option (Int64 × Int64) := fun _ => none
  isForm : ∀ {opcode form}, vectorForm? opcode = some form → opcode.vectorForm? = some form := by
    intros
    assumption

namespace Target

/-- Registers of 128 bits. -/
def sse : Target :=
  { registerSize := 16 }

/-- Registers of 256 bits. -/
def avx2 : Target :=
  { registerSize := 32 }

/-- No vector registers. -/
def scalar : Target :=
  { registerSize := 0 }

instance : Inhabited Target := ⟨scalar⟩

/-- Look up a key that now has another value. -/
def update {α : Type} (lookup : UInt64 → Option α) (key : UInt64) (value : Option α)
    (other : UInt64) : Option α :=
  if other = key then value else lookup other

def withObject (target : Target) (address vtable : UInt64) (typeId : Nat) : Target :=
  { target with
    classOf? := update target.classOf? address (some vtable)
    typeIdOf? := update target.typeIdOf? address (some typeId) }

def withRawObject (target : Target) (address : UInt64) (typeId : Nat) : Target :=
  { target with
    classOf? := update target.classOf? address none
    typeIdOf? := update target.typeIdOf? address (some typeId) }

def withClass (target : Target) (vtable : UInt64) (least greatest : Int64) : Target :=
  { target with subclassRange? := update target.subclassRange? vtable (some (least, greatest)) }

def withoutVectorForm (target : Target) (opcode : Opcode) : Target :=
  { target with
    vectorForm? := fun other => if other = opcode then none else target.vectorForm? other
    isForm := by
      intro other form isForm
      split at isForm
      · cases isForm
      · exact target.isForm isForm }

/-- The object at an address is an instance. -/
def isObject (target : Target) (address : UInt64) : Bool :=
  (target.classOf? address).isSome

/-- Whether a class is `expected` or a subclass of it, when both ranges are known. -/
def isSubclass? (target : Target) (vtable expected : UInt64) : Option Bool := do
  let (least, _) ← target.subclassRange? vtable
  let (lower, upper) ← target.subclassRange? expected
  return decide (lower ≤ least ∧ least ≤ upper)

end Target

end LinearTrace
