import LinearTrace.Opcode.Traits
import LinearTrace.Descriptor
import LinearTrace.Snapshot

/-!
# Operations

One operation of a trace: an operation code, operands, and possibly a result, a
descriptor and a snapshot.
-/

namespace LinearTrace

/-- An operation of a trace. -/
structure Operation where
  opcode : Opcode
  args : List Value
  result : Option Box := none
  descriptor : Option Descriptor := none
  snapshot : Option Snapshot := none
  deriving DecidableEq, Inhabited, Repr

namespace Operation

def isGuard (op : Operation) : Bool :=
  op.opcode.isGuard

def array? (op : Operation) : Option ArrayDescriptor :=
  op.descriptor.bind Descriptor.array?

def size? (op : Operation) : Option SizeDescriptor :=
  op.descriptor.bind Descriptor.size?

def call? (op : Operation) : Option CallDescriptor :=
  op.descriptor.bind Descriptor.call?

/-- How the operation resumes; without a guard descriptor like an ordinary guard. -/
def resume (op : Operation) : Resume :=
  (op.descriptor.bind Descriptor.resume?).getD .guard

/-- A guard that resumes at the loop header. -/
def exitsEarly (op : Operation) : Bool :=
  op.isGuard && op.resume == .atLoopHeader

/-- The same result, descriptor and snapshot under another code and other operands. -/
def recode (op : Operation) (opcode : Opcode) (args : List Value) : Operation :=
  { op with opcode := opcode, args := args }

def failArgs (op : Operation) : List Value :=
  match op.snapshot with
  | some snapshot => snapshot.values
  | none => []

/-- Every value the operation reads, operands first. -/
def uses (op : Operation) : List Value :=
  op.args ++ op.failArgs

def argBoxes (op : Operation) : List Box :=
  op.args.filterMap Value.box?

def listText (values : List Value) : String :=
  ", ".intercalate (values.map Value.text)

def descriptorText (op : Operation) : String :=
  match op.descriptor with
  | some (.array descriptor) =>
    ", descr=array" ++ toString descriptor.id ++ "[" ++ toString descriptor.itemSize ++ "]"
  | some (.guard .guard) => ""
  | some (.guard resume) => ", descr=" ++ resume.text
  | _ => ""

/-- The text of an operation, such as `i2 = int_add(i1, 3)`. -/
def text (op : Operation) : String :=
  let result :=
    match op.result with
    | some box => box.text ++ " = "
    | none => ""
  let snapshot :=
    match op.snapshot with
    | some snapshot => " [" ++ listText snapshot.values ++ "]"
    | none => ""
  result ++ op.opcode.name ++ "(" ++ listText op.args ++ op.descriptorText ++ ")" ++ snapshot

end Operation

end LinearTrace
