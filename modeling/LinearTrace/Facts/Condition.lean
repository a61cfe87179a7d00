import LinearTrace.Facts

/-!
# Learning from conditions

Once a guard has established the truth value of a condition, the operands of the
comparison behind it can be narrowed.
-/

namespace LinearTrace.Facts

/-- Narrow two operands of which a relation holds, the left one first. -/
def narrowRelation (relation : Opcode) (left right : Value) : FactsM Unit := do
  let facts ← get
  let leftInterval := facts.interval left
  let rightInterval := facts.interval right
  let relation :=
    match relation.signedForm? with
    | some signed =>
      if leftInterval.isNonnegative && rightInterval.isNonnegative then signed else relation
    | none => relation
  match relation with
  | .intLt =>
    narrow left (Interval.makeLt rightInterval)
    narrow right (Interval.makeGt leftInterval)
  | .intLe =>
    narrow left (Interval.makeLe rightInterval)
    narrow right (Interval.makeGe leftInterval)
  | .intGt =>
    narrow left (Interval.makeGt rightInterval)
    narrow right (Interval.makeLt leftInterval)
  | .intGe =>
    narrow left (Interval.makeGe rightInterval)
    narrow right (Interval.makeLe leftInterval)
  | .intEq =>
    narrow left (Interval.intersect rightInterval)
    narrow right (Interval.intersect leftInterval)
  | _ => return

/-- Narrow the operand of a zero test; `isNonzero` is what the test showed. -/
def narrowZeroTest (operand : Value) (isNonzero : Bool) : FactsM Unit :=
  if isNonzero then narrow operand Interval.makeNonzero
  else narrow operand (Interval.intersect (.constant 0))

def producer? (facts : Facts) (condition : Value) : Option Operation := do
  let box ← (facts.resolve condition).box?
  facts.output[← facts.producers[box]?]?

/-- Learn that a condition has a truth value. -/
def narrowCondition (condition : Value) (truth : Bool) : FactsM Unit := do
  match (← get).producer? condition with
  | none => return
  | some op =>
    match op.opcode, op.args with
    | .intIsTrue, [operand] | .intIsTrue, [operand, _] => narrowZeroTest operand truth
    | .intIsZero, [operand] | .intIsZero, [operand, _] => narrowZeroTest operand !truth
    | opcode, [left, right] =>
      if opcode.isComparison then
        match (if truth then some opcode else opcode.inverse?) with
        | some relation => narrowRelation relation left right
        | none => return
      else
        return
    | _, _ => return

end LinearTrace.Facts
