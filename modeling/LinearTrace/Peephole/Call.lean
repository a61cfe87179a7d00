import LinearTrace.Peephole

/-!
# Simplifying calls

A pure call on constants with a recorded result is replaced by it, a repeated
call that does not vary within the loop by its first result, a conditional call
with a decided condition is dropped or made unconditional, and a short copy
between arrays becomes loads and stores.
-/

namespace LinearTrace.Peephole

/-- A copy between arrays at constant positions. -/
structure ArrayCopy where
  array : ArrayDescriptor
  source : Value
  dest : Value
  sourceStart : Int64
  destStart : Int64
  length : Nat

/-- What is to be done about a call that copies between arrays. -/
inductive CopyPlan where
  | empty
  | items (copy : ArrayCopy)
  | stay

/-- The array type that a call writes, when it writes one type of plain items. -/
def writtenArray? (op : Operation) : Option ArrayDescriptor :=
  match op.call?.map CallDescriptor.writtenArrays with
  | some [array] => if array.isStruct then none else some array
  | _ => none

/-- The copy at constant positions of one to eight items, when no position overflows. -/
def arrayCopy? (facts : Facts) (op : Operation) : Option ArrayCopy := do
  let source ← op.args[1]?
  let dest ← op.args[2]?
  let sourceStart ← facts.word? (← op.args[3]?)
  let destStart ← facts.word? (← op.args[4]?)
  let length ← facts.word? (← op.args[5]?)
  guard (1 ≤ length ∧ length ≤ 8)
  let _ ← Word.add? sourceStart length
  let _ ← Word.add? destStart length
  let array ← writtenArray? op
  return ⟨array, source, dest, sourceStart, destStart, length.toNatClampNeg⟩

/-- The plan for a call; only calls that copy between arrays have one. -/
def copyPlan (facts : Facts) (op : Operation) : CopyPlan :=
  if (op.call?.map CallDescriptor.meaning) = some .arrayCopy then
    match op.args[5]? with
    | some length =>
      if facts.word? length = some 0 then .empty
      else
        match arrayCopy? facts op with
        | some copy => .items copy
        | none => .stay
    | none => .stay
  else
    .stay

def emitCopyItem (copy : ArrayCopy) (position : Nat) : PeepholeM Unit := do
  let item ← modifyGet fun walk =>
    let (item, facts) := walk.facts.freshBox copy.array.itemType
    (item, { walk with facts := facts })
  let offset := Int64.ofNat position
  emit { opcode := .getArrayItemGc, args := [copy.source, .int (copy.sourceStart + offset)],
         result := some item, descriptor := some (.array copy.array) }
  emit { opcode := .setArrayItemGc, args := [copy.dest, .int (copy.destStart + offset), .box item],
         descriptor := some (.array copy.array) }

def call (op : Operation) : PeepholeM Unit := do
  match copyPlan (← currentFacts) op with
  | .empty => dropCall
  | .items copy =>
    (List.range copy.length).forM (emitCopyItem copy)
    dropCall
  | .stay => emit op

def callPure (op : Operation) : PeepholeM Unit := do
  let facts ← currentFacts
  match (op.args.mapM facts.constant?).bind facts.callResult? with
  | some literal =>
    match op.result with
    | some result => updateFacts fun facts => facts.makeConstant (.box result) literal
    | none => pure ()
    dropCall
  | none => emit (op.recode .call op.args)

/-- A call whose result does not vary within the loop. -/
def callLoopInvariant (op : Operation) : PeepholeM Unit := do
  let walk ← get
  let plain := op.recode .call op.args
  match walk.facts.constant? (← op.arg 0) with
  | none => emit plain
  | some function =>
    match walk.invariantCalls[function]?, op.result with
    | some (some earlier), some result =>
      updateFacts fun facts => facts.makeEqual result (.box earlier)
      dropCall
    | some _, none => dropCall
    | _, _ =>
      emit plain
      modify fun walk =>
        { walk with invariantCalls := walk.invariantCalls.insert function op.result }

/-- A call that is made if its first operand is not zero. -/
def condCall (op : Operation) : PeepholeM Unit := do
  let condition := (← currentFacts).interval (← op.arg 0)
  if condition.isExactly 0 then dropCall
  else if condition.excludesZero then
    countReduced
    emit (op.recode .call (op.args.drop 1))
  else emit op

end LinearTrace.Peephole
