import LinearTrace.MemoryRef

/-!
# Collapsing index guards

After unrolling, one index is compared with one bound several times, at different
offsets. Of the guards that resume at the loop header and compare alike, only the
strongest one is kept. Index arithmetic then starts from the base box.
-/

namespace LinearTrace

/-- What two guards must share so that one of them may imply the other. -/
structure GuardKey where
  comparison : Opcode
  base : Box
  multiplier : Int64
  divisor : Int64
  bound : Value
  deriving DecidableEq, Hashable, Inhabited

/-- A condition that a guard checks: a comparison of an affine index with a bound. -/
structure IndexCondition where
  key : GuardKey
  offset : Int64

def Opcode.isOrder : Opcode → Bool
  | .intLt | .intLe | .intGt | .intGe => true
  | _ => false

structure Comparison where
  opcode : Opcode
  left : Value
  right : Value

namespace Comparison

/-- The order comparisons of a list of operations, by their results. -/
def table (ops : List Operation) : Except Fault (Std.HashMap Box Comparison) :=
  ops.foldlM (fun table op => do
    match op.opcode.isOrder, op.result with
    | true, some result => return table.insert result ⟨op.opcode, ← op.arg 0, ← op.arg 1⟩
    | _, _ => return table) ∅

def negate? (comparison : Comparison) : Option Comparison :=
  comparison.opcode.inverse?.map fun opcode => { comparison with opcode := opcode }

/-- The comparison read from right to left. -/
def flip? (comparison : Comparison) : Option Comparison :=
  comparison.opcode.reflex?.map fun opcode => ⟨opcode, comparison.right, comparison.left⟩

/-- The operand is computed from another box. -/
def isDerived (indices : IndexTable) (value : Value) : Bool :=
  value.box?.any indices.contains

/-- The comparison with an index that is computed from another box on its left. -/
def orient? (comparison : Comparison) (indices : IndexTable) : Option Comparison :=
  if !isDerived indices comparison.left && isDerived indices comparison.right then
    comparison.flip?
  else
    some comparison

def condition? (comparison : Comparison) (indices : IndexTable) : Option IndexCondition := do
  let comparison ← comparison.orient? indices
  let index ← IndexVar.ofValue? indices comparison.left
  let base ← index.base
  return {
    key := ⟨comparison.opcode, base, index.multiplier, index.divisor, comparison.right⟩
    offset := index.offset }

end Comparison

namespace IndexCondition

/-- The condition that a guard checks, when the guard resumes at the loop header. -/
def ofGuard (indices : IndexTable) (comparisons : Std.HashMap Box Comparison) (op : Operation) :
    Except Fault (Option IndexCondition) := do
  let isTrue := op.opcode == .guardTrue
  if op.exitsEarly && (isTrue || op.opcode == .guardFalse) then
    let condition ← op.arg 0
    return do
      let comparison ← comparisons[← condition.box?]?
      let comparison ← if isTrue then some comparison else comparison.negate?
      comparison.condition? indices
  else
    return none

/-- The condition implies the one with the same key at another offset. -/
def implies (condition : IndexCondition) (offset : Int64) : Bool :=
  match condition.key.comparison with
  | .intLt | .intLe => decide (offset ≤ condition.offset)
  | _ => decide (condition.offset ≤ offset)

end IndexCondition

/-- The strongest guards so far and the guards that they make superfluous. -/
structure GuardCollapse where
  /-- Offset and position of the strongest guard of each key. -/
  strongest : Std.HashMap GuardKey (Int64 × Nat) := ∅
  dropped : List Nat := []

namespace GuardCollapse

/-- Take account of a condition that is checked at a position. -/
def consider (state : GuardCollapse) (condition : IndexCondition) (position : Nat) :
    GuardCollapse :=
  let strongest := state.strongest.insert condition.key (condition.offset, position)
  match state.strongest[condition.key]? with
  | none => { state with strongest := strongest }
  | some (offset, earlier) =>
    if condition.implies offset then
      { strongest := strongest, dropped := earlier :: state.dropped }
    else
      { state with dropped := position :: state.dropped }

/-- The superfluous guards among operations from a position on. -/
def scan (indices : IndexTable) (comparisons : Std.HashMap Box Comparison) :
    Nat → List Operation → GuardCollapse → Except Fault GuardCollapse
  | _, [], state => .ok state
  | position, op :: rest, state => do
      let state :=
        match ← IndexCondition.ofGuard indices comparisons op with
        | some condition => state.consider condition position
        | none => state
      scan indices comparisons (position + 1) rest state

/-- Let index arithmetic start from the base box. -/
def adapt (indices : IndexTable) (op : Operation) : Operation :=
  match op.opcode.isPure, op.result.bind fun result => indices[result]? with
  | true, some index => index.adapt op
  | _, _ => op

/-- The operations that are kept, and the number of guards dropped. The comparison of a dropped
guard goes too when nothing else reads it. -/
def collapse (ops : List Operation) : Except Fault (List Operation × Nat) := do
  let indices := IndexTable.ofOperations ops
  let comparisons ← Comparison.table ops
  let state ← scan indices comparisons 0 ops {}
  let indexed := ops.zipIdx
  let (gone, kept) := indexed.partition fun (_, position) => state.dropped.contains position
  let conditions := gone.filterMap fun (op, _) => op.args.head?.bind Value.box?
  let kept := kept.map fun (op, _) => adapt indices op
  let used : Std.HashSet Box := .ofList (kept.flatMap fun op => op.uses.filterMap Value.box?)
  let isLive (op : Operation) : Bool :=
    match op.result with
    | some result => !conditions.contains result || used.contains result
    | none => true
  return (kept.filter isLive, gone.length)

end GuardCollapse

end LinearTrace
