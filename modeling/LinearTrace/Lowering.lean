import LinearTrace.Lowering.Signature
import LinearTrace.Pack

/-!
# Lowering packs to vector operations

While a packed graph is scheduled, every pack becomes one vector operation for
each part that fits a register, and it is kept which lane of which vector box now
holds a scalar box. An operand of a pack is brought into shape on the way: lanes
that lie side by side in one vector are taken from it, equal scalars are spread,
anything else is assembled lane by lane. An operation that stays scalar reads a
packed box through an unpacking.
-/

namespace LinearTrace

structure VectorBox where
  id : Nat
  shape : VectorShape
  deriving DecidableEq, Hashable, Inhabited, Repr

def VectorBox.toBox (vector : VectorBox) : Box :=
  ⟨vector.id, .vector vector.shape⟩

def VectorBox.toValue (vector : VectorBox) : Value :=
  .box vector.toBox

structure Lane where
  position : Nat
  vector : VectorBox
  deriving DecidableEq, Hashable, Inhabited, Repr

def Lane.next (lane : Lane) : Lane :=
  { lane with position := lane.position + 1 }

/-- How many places, from the first on, hold the lanes that follow a lane. -/
def Lane.followers (lane : Lane) : List (Option Lane) → Nat
  | some next :: rest => if next = lane.next then next.followers rest + 1 else 0
  | _ => 0

/-- The first lane of places that hold consecutive lanes of one vector. -/
def Lane.consecutive? : List (Option Lane) → Option Lane
  | some lane :: rest => if lane.followers rest = rest.length then some lane else none
  | _ => none

namespace LaneKind

def packCode : LaneKind → Opcode
  | .int => .vecIntPack
  | .float => .vecFloatPack

def unpackCode : LaneKind → Opcode
  | .int => .vecIntUnpack
  | .float => .vecFloatUnpack

def expandCode : LaneKind → Opcode
  | .int => .vecIntExpand
  | .float => .vecFloatExpand

end LaneKind

/-- The state of lowering. -/
structure Lowering where
  target : Target
  registerSize : Nat
  /-- The lane size where neither operation nor operands fix one. -/
  smallest : Nat
  supply : BoxSupply
  /-- The lane that now holds a scalar box. -/
  lanes : Std.HashMap Box Lane := ∅
  /-- The box that a packed box was unpacked into. -/
  unpacked : Std.HashMap Box Box := ∅
  vectorOps : Nat := 0
  unpacks : Nat := 0
  output : Array Operation := #[]
  deriving Inhabited

abbrev LoweringM := Work Lowering

namespace Lowering

def laneOf? (lowering : Lowering) (value : Value) : Option Lane :=
  value.box?.bind fun box => lowering.lanes[box]?

def push (op : Operation) : LoweringM Unit :=
  modify fun lowering => { lowering with output := lowering.output.push op }

def freshBox (type : ValueType) : LoweringM Box :=
  modifyGet fun lowering =>
    let (box, supply) := lowering.supply.fresh type
    (box, { lowering with supply := supply })

def freshVector (shape : VectorShape) : LoweringM VectorBox := do
  return ⟨(← freshBox (.vector shape)).id, shape⟩

def emitVector (opcode : Opcode) (args : List Value) (shape : VectorShape) :
    LoweringM VectorBox := do
  let result ← freshVector shape
  push { opcode := opcode, args := args, result := some result.toBox }
  return result

def emptyVector (shape : VectorShape) : LoweringM VectorBox :=
  emitVector .vecBox [.count shape.count.toNat] shape

/-- Put `count` lanes of a source into a vector, from a lane on. -/
def packInto (vector : VectorBox) (source : Value) (lane count : Nat) : LoweringM VectorBox :=
  emitVector vector.shape.kind.packCode [vector.toValue, source, .count lane, .count count]
    vector.shape

/-- The lanes `start` to `start + count` as a vector of their own. -/
def slice (vector : VectorBox) (start count : Nat) : LoweringM VectorBox :=
  emitVector vector.shape.kind.unpackCode [vector.toValue, .count start, .count count]
    (vector.shape.withCount (UInt16.ofNat count))

/-- The lanes `start` to `start + count`, which may be the whole vector. -/
def lanesFrom (vector : VectorBox) (start count : Nat) : LoweringM VectorBox :=
  if start = 0 ∧ vector.shape.count.toNat = count then pure vector
  else slice vector start count

/-- The scalar form of an operand; a packed box is unpacked when it is first read. -/
def scalar (value : Value) : LoweringM Value := do
  let lowering ← get
  match value with
  | .const _ => return value
  | .box source =>
    match lowering.unpacked[source]?, lowering.lanes[source]? with
    | some copy, _ => return .box copy
    | none, none => return value
    | none, some lane =>
      let copy ← freshBox source.type
      push {
        opcode := lane.vector.shape.kind.unpackCode
        args := [lane.vector.toValue, .count lane.position, .int 1]
        result := some copy }
      modify fun lowering => { lowering with
        unpacked := lowering.unpacked.insert source copy
        unpacks := lowering.unpacks + 1 }
      return .box copy

/-- Bring integer lanes to the size of a lane type. -/
def adjustWidth (vector : VectorBox) (type : LaneType) : LoweringM VectorBox :=
  if type.kind = some .int ∧ vector.shape.kind = .int ∧ type.size ≠ 0
      ∧ vector.shape.itemSize.toNat ≠ type.size then
    emitVector .vecIntSignExtend
      [vector.toValue, .count type.size, .count vector.shape.count.toNat]
      (vector.shape.withItemSize (UInt8.ofNat type.size))
  else
    pure vector

/-- The shape of an assembled vector; lanes of open size are words. -/
def assembledShape (kind : LaneKind) (type : LaneType) (count : Nat) : VectorShape :=
  ⟨kind, UInt16.ofNat count, UInt8.ofNat (if 0 < type.size then type.size else 8), type.signed⟩

def fill (vector : VectorBox) (lane : Nat) : List Value → LoweringM VectorBox
  | [] => pure vector
  | value :: rest => do
      let source ← scalar value
      fill (← packInto vector source lane 1) (lane + 1) rest

/-- A vector of scalars: equal ones are spread, others put in one by one. -/
def expand (values : List Value) (type : LaneType) : LoweringM VectorBox := do
  let first := values.headD default
  let kind := if first.type.isFloat then LaneKind.float else .int
  let shape := assembledShape kind type values.length
  if values.all fun value => value == first then
    let source ← scalar first
    emitVector kind.expandCode [source, .count values.length] shape
  else
    fill (← emptyVector shape) 0 values

/-- Fill a vector with scalars and with runs of lanes of other vectors, from a lane on. -/
def gatherInto (vector : VectorBox) (position : Nat) :
    List (Value × Option Lane) → LoweringM VectorBox
  | [] => pure vector
  | (value, none) :: rest => do
      let source ← scalar value
      gatherInto (← packInto vector source position 1) (position + 1) rest
  | (_, some lane) :: rest => do
      let followers := lane.followers (rest.map Prod.snd)
      let part ← lanesFrom lane.vector lane.position (followers + 1)
      let vector ← packInto vector part.toValue position (followers + 1)
      gatherInto vector (position + followers + 1) (rest.drop followers)
termination_by values => values.length
decreasing_by
  · exact Nat.lt_succ_self _
  · simp only [List.length_cons, List.length_drop]; omega

def gather (values : List (Value × Option Lane)) (type : LaneType) : LoweringM VectorBox := do
  let kind := type.kind.getD .int
  gatherInto (← emptyVector (assembledShape kind type values.length)) 0 values

/-- The operands of some scalar operations in one vector, with the lane at which they start. Where
an offset may be passed on, lanes inside a vector are left there. -/
def placeOperand (values : List Value) (type : LaneType) (allowsOffset : Bool) :
    LoweringM (VectorBox × Nat) := do
  let lowering ← get
  let sources := values.map lowering.laneOf?
  match Lane.consecutive? sources with
  | some lane =>
    if allowsOffset then return (lane.vector, lane.position)
    else return (← lanesFrom lane.vector lane.position values.length, 0)
  | none =>
    if sources.all Option.isNone then return (← expand values type, 0)
    else return (← gather (values.zip sources) type, 0)

def vectorOperand (values : List Value) (type : LaneType) (allowsOffset : Bool) :
    LoweringM (VectorBox × Nat) := do
  let (vector, start) ← placeOperand values type allowsOffset
  return (← adjustWidth vector type, start)

/-- The lane type of a pack: the one it has, or the result's lanes widened by the operands. -/
def laneType (lowering : Lowering) (pack : Pack) (graph : DependencyGraph)
    (signature : VectorSignature) : Except Fault LaneType := do
  match pack.laneType.filter LaneType.isValid with
  | some type => return type
  | none =>
    let op := (← graph.fetch pack.first).op
    let type := (signature.operands.zip op.args).foldl (fun type (operand, value) =>
      match operand, lowering.laneOf? value with
      | some _, some lane => type.widen lane.vector.shape
      | _, _ => type) (signature.result.getD .unknown)
    let isFloat := (op.result.map fun box => box.type.isFloat).getD false
    let kind := type.kind.getD (if isFloat then .float else .int)
    let size := if type.size = 0 then max lowering.smallest 1 else type.size
    return { type with kind := some kind, size := size }

def resolvedLanes (signature : VectorSignature) (pack lanes : LaneType) : LaneType :=
  if signature.fromArray then pack else lanes.resolve pack

/-- One operand of a part of a pack, with the lane at which a vector operand starts. -/
def lowerOperand (graph : DependencyGraph) (signature : VectorSignature) (type : LaneType)
    (part : List Nat) (value : Value) (position : Nat) : LoweringM (Value × Option Nat) := do
  match signature.operandAt position with
  | some lanes =>
    let values ← part.mapM fun member => do (← graph.fetch member).op.arg position
    let (vector, start) ← vectorOperand values (resolvedLanes signature type lanes)
      signature.passesOffset
    return (vector.toValue, some start)
  | none => return (← scalar value, none)

/-- The shape of a result; some operations give its lane size as an operand. -/
def resultShape (signature : VectorSignature) (shape : VectorShape) (args : List Value) :
    Except Fault VectorShape :=
  match signature.resultSizeOperand with
  | none => .ok shape
  | some position =>
    match args[position]? with
    | none => .error (.abort .outOfRange)
    | some value =>
      match value.const?.bind Const.int? with
      | some size => .ok (shape.withItemSize size.toUInt64.toUInt8)
      | none => .ok shape

/-- Remember that the results of some nodes are the lanes of a vector, from a lane on. -/
def recordLanes (graph : DependencyGraph) (vector : VectorBox) :
    Nat → List Nat → LoweringM Unit
  | _, [] => pure ()
  | position, member :: rest => do
      match (← graph.fetch member).op.result with
      | some result =>
        modify fun lowering => { lowering with
          lanes := lowering.lanes.insert result ⟨position, vector⟩ }
      | none => pure ()
      recordLanes graph vector (position + 1) rest

def lowerResult (graph : DependencyGraph) (signature : VectorSignature) (type : LaneType)
    (part : List Nat) (args : List Value) : LoweringM (Option VectorBox) := do
  match signature.result with
  | none => return none
  | some lanes =>
    let shape := (resolvedLanes signature type lanes).shape part.length
    let vector ← freshVector (← resultShape signature shape args)
    recordLanes graph vector 0 part
    return some vector

def lowerPart (graph : DependencyGraph) (opcode : Opcode) (signature : VectorSignature)
    (type : LaneType) (part : List Nat) : LoweringM Unit := do
  let op := (← graph.fetch (part.headD 0)).op
  let operands ← op.args.zipIdx.mapM fun (value, position) =>
    lowerOperand graph signature type part value position
  let offset := (operands.filterMap Prod.snd).getLastD 0
  let args := operands.map Prod.fst
    ++ (if signature.passesOffset then [.count offset] else []) ++ [.count part.length]
  let result ← lowerResult graph signature type part args
  push { opcode := opcode, args := args, result := result.map VectorBox.toBox,
         descriptor := op.descriptor }
  modify fun lowering => { lowering with vectorOps := lowering.vectorOps + 1 }

/-- The list in parts of a given positive length, the last of which may be shorter. -/
def parts (length : Nat) (members : List Nat) : List (List Nat) :=
  match members with
  | [] => []
  | first :: rest =>
    (first :: rest.take (length - 1)) :: parts length (rest.drop (length - 1))
termination_by members.length
decreasing_by simp only [List.length_cons, List.length_drop]; omega

def lanesPerPart (pack : Pack) (type : LaneType) (registerSize : Nat) : Nat :=
  if pack.isOverloaded registerSize then max (registerSize / type.size) 1 else pack.size

/-- Emit the vector operations of a pack and return it with its lane type. -/
def lowerPack (graph : DependencyGraph) (pack : Pack) : LoweringM Pack := do
  let lowering ← get
  let op := (← graph.fetch pack.first).op
  let some opcode := lowering.target.vectorForm? op.opcode
    | throw (.abort (.noVectorForm op.opcode))
  let some signature := opcode.vectorSignature?
    | throw (.abort (.noOperandShape opcode))
  let type ← lowering.laneType pack graph signature
  let pack := { pack with laneType := some type }
  (parts (lanesPerPart pack type lowering.registerSize) pack.members).forM
    (lowerPart graph opcode signature type)
  return pack

/-- An operation that stays scalar, with its operands and snapshot unpacked. -/
def lowerScalar (op : Operation) : LoweringM Operation := do
  let args ← op.args.mapM scalar
  let snapshot ← op.snapshot.mapM fun snapshot => do
    return (← snapshot.renameWith scalar).snapshot
  return { op with args := args, snapshot := snapshot }

end Lowering

end LinearTrace
