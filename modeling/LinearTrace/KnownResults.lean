import Std.Data.HashMap
import LinearTrace.Fault

/-!
# Known results

A table of pure operations whose results are known, by operation code and
operands. An emitted operation also makes its reverse forms known: after
`r = a + b` the differences `r - b` and `r - a` need not be computed.
-/

namespace LinearTrace

/-- Results of pure operations. -/
structure KnownResults where
  table : Std.HashMap (Opcode × List Value) Value := ∅
  deriving Inhabited

namespace KnownResults

def lookup (known : KnownResults) (opcode : Opcode) (args : List Value) : Option Value :=
  known.table[(opcode, args)]?

/-- Remember a result; a result that is known already stays. -/
def record (known : KnownResults) (opcode : Opcode) (args : List Value) (result : Value) :
    KnownResults :=
  { table := known.table.insertIfNew (opcode, args) result }

def recordAll (known : KnownResults) (entries : List (Opcode × List Value × Value)) :
    KnownResults :=
  entries.foldl (fun known entry => known.record entry.1 entry.2.1 entry.2.2) known

def size (known : KnownResults) : Nat :=
  known.table.size

/-- The negation of an integer constant, unless it overflows. -/
def negated? (value : Value) : Option Value := do
  let word ← (← value.const?).int?
  return .int (← Word.neg? word)

/-- The identities that an operation with the given result implies. -/
def reverseForms (known : KnownResults) (op : Operation) (result : Value) :
    Except Fault (List (Opcode × List Value × Value)) := do
  match op.opcode with
  | .intAdd =>
    let left ← op.arg 0
    let right ← op.arg 1
    return [(.intAdd, [right, left], result), (.intSub, [result, right], left),
        (.intSub, [result, left], right)]
      ++ (negated? right).toList.map (fun negation => (.intSub, [left, negation], result))
      ++ (negated? left).toList.map (fun negation => (.intSub, [right, negation], result))
  | .intSub =>
    let left ← op.arg 0
    let right ← op.arg 1
    return [(.intAdd, [result, right], left), (.intAdd, [right, result], left),
        (.intSub, [left, result], right)]
      ++ (negated? right).toList.flatMap fun negation =>
        [(.intAdd, [left, negation], result), (.intAdd, [negation, left], result)]
  | .intMul | .intAnd | .intOr | .intXor | .floatAdd | .floatMul =>
    let right ← op.arg 1
    let left ← op.arg 0
    return [(op.opcode, [right, left], result)]
  | .floatSub =>
    let left ← op.arg 0
    let right ← op.arg 1
    return (known.lookup .floatNeg [right]).toList.flatMap fun negation =>
      [(.floatAdd, [left, negation], result), (.floatAdd, [negation, left], result)]
  | .floatNeg | .intNeg | .intInvert => return [(op.opcode, [result], ← op.arg 0)]
  | .castPtrToInt => return [(.castIntToPtr, [result], ← op.arg 0)]
  | .castIntToPtr => return [(.castPtrToInt, [result], ← op.arg 0)]
  | _ => return []

def recordReverse (known : KnownResults) (op : Operation) : Except Fault KnownResults := do
  match op.result with
  | some box => return known.recordAll (← known.reverseForms op (.box box))
  | none => return known

end KnownResults

end LinearTrace
