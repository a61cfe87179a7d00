import Std.Data.HashMap
import LinearTrace.Vectorize.Relaxation

/-!
# Unrolling

Copies of a loop body are appended with new boxes for their results. In each
copy the boxes of the label stand for what the previous iteration jumps with.
-/

namespace LinearTrace

/-- The state of unrolling: what each box of the body currently stands for. -/
structure Unrolling where
  renamed : Std.HashMap Box Value := ∅
  supply : BoxSupply

namespace Unrolling

def rename (state : Unrolling) : Value → Value
  | .box source => state.renamed.getD source (.box source)
  | .const literal => .const literal

/-- Bind the boxes of the label to what the previous iteration jumps with. All of that is read
before anything is bound. -/
def carry (state : Unrolling) (label jump : Operation) : Unrolling :=
  let carried := (label.args.zip jump.args).filterMap fun (parameter, value) =>
    parameter.box?.map fun box => (box, state.rename value)
  { state with
    renamed := carried.foldl (fun renamed (box, value) => renamed.insert box value) state.renamed }

def renewResult (state : Unrolling) : Option Box → Option Box × Unrolling
  | none => (none, state)
  | some result =>
    let (fresh, supply) := state.supply.fresh result.type
    (some fresh, { renamed := state.renamed.insert result (.box fresh), supply := supply })

/-- Copy one operation. A guard that resumes at the loop header keeps its snapshot. -/
def copy (state : Unrolling) (op : Operation) : Operation × Unrolling :=
  let args := op.args.map state.rename
  let (result, state) := state.renewResult op.result
  let snapshot :=
    if op.isGuard && !op.exitsEarly then
      op.snapshot.map fun snapshot => (snapshot.rename state.rename).snapshot
    else
      op.snapshot
  ({ op with args := args, result := result, snapshot := snapshot }, state)

def isRepeated (op : Operation) : Bool :=
  !op.opcode.isLoopGuard && !op.opcode.isDebug

def copyAll (state : Unrolling) : List Operation → List Operation × Unrolling
  | [] => ([], state)
  | op :: rest =>
    let (copied, state) := state.copy op
    let (copies, state) := state.copyAll rest
    (copied :: copies, state)

def iterate (label jump : Operation) (body : List Operation) :
    Nat → Unrolling → List Operation × Unrolling
  | 0, state => ([], state)
  | count + 1, state =>
    let (copies, state) := (state.carry label jump).copyAll body
    let (further, state) := iterate label jump body count state
    (copies ++ further, state)

/-- The jump that closes a loop; a closing label stands for a jump to the first one. -/
def closingJump (label last : Operation) : Operation :=
  if last.opcode = .label then
    { opcode := .jump, args := last.args, descriptor := label.descriptor }
  else
    last

/-- A loop followed by `count` further iterations of its body. -/
def unroll (ops : List Operation) (count : Nat) (supply : BoxSupply) :
    List Operation × BoxSupply :=
  match ops with
  | label :: second :: rest =>
    let body := (second :: rest).dropLast
    let jump := closingJump label ((second :: rest).getLastD second)
    let (copies, state) := iterate label jump (body.filter isRepeated) count { supply := supply }
    let closing := { jump with args := jump.args.map state.rename }
    (label :: body ++ copies ++ [closing], state.supply)
  | _ => (ops, supply)

end Unrolling

end LinearTrace
