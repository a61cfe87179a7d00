import LinearTrace.Peephole
import LinearTrace.Facts.Condition

/-!
# Simplifying guards

A guard that is known to hold is dropped; one that is known to fail makes the
trace contradict itself; a guard on a reference may strengthen an earlier guard
on the same reference in place. Whatever a guard that stays establishes is
learned.
-/

namespace LinearTrace.Peephole

def guardConstant (op : Operation) (expected : Const) : PeepholeM Unit := do
  let facts ← currentFacts
  let value := facts.resolve (← op.arg 0)
  match facts.constant? value with
  | some known =>
    if known = expected then countGuardRemoved
    else Work.contradict (.guardFails op)
  | none =>
    emit op
    match op.opcode with
    | .guardTrue => onFacts (Facts.narrowCondition value true)
    | .guardFalse => onFacts (Facts.narrowCondition value false)
    | _ => pure ()
    updateFacts fun facts => facts.makeConstant value expected

/-- Whether a constant may be guarded for where a class is known: not when the target does not
know the constant's class. -/
def classAgrees (facts : Facts) (fact : PointerFact) (expected : Const) : Except Fault Bool :=
  match fact.knownClass with
  | none => .ok true
  | some known =>
    match expected.address?.bind facts.target.classOf? with
    | none => .ok false
    | some vtable =>
      if vtable = known then .ok true else .error (.contradiction .valueOfOtherClass)

/-- Strengthen the guard at a position to one for a constant; tells whether that was done. -/
def mergeIntoValueGuard (value : Value) (fact : PointerFact) (position : Nat) (expected : Const) :
    PeepholeM Bool := do
  let facts ← currentFacts
  if !expected.isNonnull then
    Work.contradict .nullAfterNonnull
  if !(← classAgrees facts fact expected) then
    return false
  let earlier ← facts.operationAt position
  if earlier.resume = .atPosition then
    return false
  let merged := { earlier.recode .guardValue [← earlier.arg 0, .const expected] with
    descriptor := some (.guard .guard) }
  let facts ← facts.replaceOperation position merged
  updateFacts fun _ => facts.updatePointer value PointerFact.withoutLastGuard
  countGuardMerged
  return true

def guardValue (op : Operation) : PeepholeM Unit := do
  let facts ← currentFacts
  let value := facts.resolve (← op.arg 0)
  match facts.constant? (← op.arg 1) with
  | none => emit op
  | some expected =>
    let fact := facts.pointer value
    match value.type.isRef && !value.isConst, fact.lastGuard with
    | true, some position =>
      if ← mergeIntoValueGuard value fact position expected then
        updateFacts fun facts => facts.makeConstant value expected
      else
        guardConstant op expected
    | _, _ => guardConstant op expected

def guardIsNull (op : Operation) : PeepholeM Unit := do
  let facts ← currentFacts
  let value := facts.resolve (← op.arg 0)
  let fact := facts.pointer value
  if fact.isNull then countGuardRemoved
  else if fact.isNonnull then Work.contradict .isNullFails
  else
    emit op
    updateFacts fun facts => facts.makeConstant value .null

/-- Emit a guard and learn from it; unless it resumes at its position, remember it as one that
may be strengthened. -/
def emitPointerGuard (op : Operation) (value : Value) (learn : PointerFact → PointerFact) :
    PeepholeM Unit := do
  let position := (← currentFacts).nextPosition
  emit op
  updateFacts fun facts => facts.updatePointer value fun fact =>
    let fact := learn fact
    if op.resume = .atPosition then fact else fact.withLastGuard position

def guardNonnull (op : Operation) : PeepholeM Unit := do
  let facts ← currentFacts
  let value := facts.resolve (← op.arg 0)
  let fact := facts.pointer value
  if fact.isNonnull then countGuardRemoved
  else if fact.isNull then Work.contradict .nonnullFails
  else emitPointerGuard op value PointerFact.withNonnull

def guardIsObject (op : Operation) : PeepholeM Unit := do
  let facts ← currentFacts
  match facts.resolve (← op.arg 0) with
  | .const literal =>
    let address := literal.address?.getD 0
    if address = 0 then Work.contradict .isObjectOfNull
    else if facts.target.isObject address then countGuardRemoved
    else Work.contradict .isObjectOfConstantFails
  | .box box =>
    let fact := facts.pointer (.box box)
    if fact.isObject then countGuardRemoved
    else if fact.isPrecise then Work.contradict .isObjectFails
    else emit op

/-- The type number of the object that a resolved reference names. -/
def typeId? (facts : Facts) : Value → Option Nat
  | .const literal => literal.address?.bind facts.target.typeIdOf?
  | .box box => (facts.pointer (.box box)).typeId

def guardGcType (op : Operation) : PeepholeM Unit := do
  let facts ← currentFacts
  let value := facts.resolve (← op.arg 0)
  match facts.word? (← op.arg 1) with
  | none => emit op
  | some expected =>
    match typeId? facts value with
    | none => emit op
    | some known =>
      if (known : Int) = expected.toInt then countGuardRemoved
      else Work.contradict .gcTypeFails

/-- A guard that a reference is an instance of a class or of a subclass. -/
def guardSubclass (op : Operation) : PeepholeM Unit := do
  let facts ← currentFacts
  let value := facts.resolve (← op.arg 0)
  match facts.address? (← op.arg 1) with
  | none => emit op
  | some expected =>
    match value with
    | .const literal =>
      let verdict := do
        facts.target.isSubclass? (← facts.target.classOf? (← literal.address?)) expected
      match verdict with
      | some true => countGuardRemoved
      | some false => Work.contradict .subclassFails
      | none => emit op
    | .box box =>
      let fact := facts.pointer (.box box)
      let verdict := do facts.target.isSubclass? (← fact.knownClass) expected
      if fact.isObject && verdict == some true then countGuardRemoved
      else emit op

def guardClass (op : Operation) : PeepholeM Unit := do
  let facts ← currentFacts
  let value := facts.resolve (← op.arg 0)
  let classArg := facts.resolve (← op.arg 1)
  match classArg.const?.bind Const.address? with
  | none => emit op
  | some expected =>
    let fact := facts.pointer value
    match fact.knownClass with
    | some known =>
      if known = expected then countGuardRemoved
      else Work.contradict (.guardFails op)
    | none =>
      if value.isConst then emit op
      else
        match ← earlierNonnullGuard? facts fact with
        | some (position, earlier) =>
          let merged := { earlier.recode .guardNonnullClass [← earlier.arg 0, classArg] with
            descriptor := some (.guard .guard) }
          let facts ← facts.replaceOperation position merged
          updateFacts fun _ => facts.updatePointer value (PointerFact.withClass · expected)
          countGuardMerged
        | none => emitPointerGuard op value (PointerFact.withClass · expected)
where
  /-- The emitted guard against null that may be strengthened to a class guard. -/
  earlierNonnullGuard? (facts : Facts) (fact : PointerFact) :
      Except Fault (Option (Nat × Operation)) := do
    match fact.lastGuard with
    | none => return none
    | some position =>
      let earlier ← facts.operationAt position
      if earlier.opcode = .guardNonnull ∧ earlier.resume ≠ .atPosition then
        return some (position, earlier)
      else
        return none

def guardNonnullClass (op : Operation) : PeepholeM Unit := do
  let facts ← currentFacts
  if (facts.pointer (← op.arg 0)).isNull then Work.contradict .nonnullClassFails
  else guardClass op

/-- A guard that the call before it raised nothing: it goes with a dropped call. -/
def guardNoException (op : Operation) : PeepholeM Unit := do
  if (← currentFacts).lastRemoved then countGuardRemoved else emit op

/-- A claim about the exact class of a reference, which leaves no operation behind. -/
def recordExactClass (op : Operation) : PeepholeM Unit := do
  let facts ← currentFacts
  let value := facts.resolve (← op.arg 0)
  match facts.address? (← op.arg 1) with
  | none => return
  | some expected =>
    match (facts.pointer value).knownClass with
    | some known => if known ≠ expected then Work.contradict .exactClassConflict
    | none =>
      updateFacts fun facts => facts.updatePointer value (PointerFact.withClass · expected)

end LinearTrace.Peephole
