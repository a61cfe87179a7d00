import Mathlib.Logic.Function.Basic
import LinearTrace.Vectorize.Unroll
import LinearTrace.Proofs.Run

/-!
# Running a loop

What the operations of a loop compute is left open: an interpretation gives every
operation a value and a new state as functions of the values of its operands and
of the state, and every guard a verdict.  A loop runs its body, binds the boxes
of its label to what it jumps with, and runs its body again.  Loop guards and
debugging operations pass without effect.
-/

namespace LinearTrace

open Unrolling

universe u v w x

/-- Where a run ended: at its end with a result, or at a position, with the frames of the
guard that failed there. -/
inductive Ending (Position : Type u) (Result : Type v) (V : Type w) (S : Type x) where
  | finished (result : Result) (state : S)
  | left (position : Position) (frames : List (List V)) (state : S)

namespace Ending

variable {Position Position' : Type u} {Result Result' : Type v} {V : Type w} {S : Type x}

/-- The same ending with other names for the positions. -/
def relocate (onto : Position → Position') : Ending Position Result V S →
    Ending Position' Result V S
  | .finished result state => .finished result state
  | .left position frames state => .left (onto position) frames state

theorem relocate_relocate {Position'' : Type u} (first : Position → Position')
    (second : Position' → Position'') (ending : Ending Position Result V S) :
    (ending.relocate first).relocate second = ending.relocate (second ∘ first) := by
  cases ending <;> rfl

@[simp] theorem relocate_id (ending : Ending Position Result V S) :
    ending.relocate id = ending := by
  cases ending <;> rfl

/-- Go on after the end of a run. -/
def andThen (ending : Ending Position Result V S)
    (next : Result → S → Ending Position Result' V S) : Ending Position Result' V S :=
  match ending with
  | .finished result state => next result state
  | .left position frames state => .left position frames state

theorem relocate_andThen (onto : Position → Position') (ending : Ending Position Result V S)
    (next : Result → S → Ending Position Result' V S) :
    (ending.andThen next).relocate onto =
      (ending.relocate onto).andThen fun result state => (next result state).relocate onto := by
  cases ending <;> rfl

theorem andThen_andThen {Result'' : Type v} (ending : Ending Position Result V S)
    (next : Result → S → Ending Position Result' V S)
    (last : Result' → S → Ending Position Result'' V S) :
    (ending.andThen next).andThen last =
      ending.andThen fun result state => (next result state).andThen last := by
  cases ending <;> rfl

end Ending

/-- How many operations before a position every iteration repeats. -/
def Unrolling.repeatedBefore (body : List Operation) (position : Nat) : Nat :=
  ((body.take position).filter Unrolling.isRepeated).length

/-- A meaning of the operations of a loop, over values and states of any kind. -/
structure Interpretation (V : Type w) (S : Type x) where
  literal : Const → V
  /-- The value of the result, which an operation without one does not define, and the state
  afterwards. -/
  perform : Opcode → Option Descriptor → Option ValueType → List V → S → V × S
  /-- The verdict of a guard. -/
  passes : Opcode → Option Descriptor → List V → S → Bool

namespace Interpretation

variable {V : Type w} {S : Type x} (meaning : Interpretation V S)

/-- The value of a value where the boxes have the values of an environment. -/
def value (environment : Box → V) : Value → V
  | .box box => environment box
  | .const literal => meaning.literal literal

def values (environment : Box → V) (operands : List Value) : List V :=
  operands.map (meaning.value environment)

/-- The environment after an operation defined its result. -/
def define (environment : Box → V) : Option Box → V → Box → V
  | none, _ => environment
  | some box, result => Function.update environment box result

@[simp] theorem define_self (environment : Box → V) (box : Box) (result : V) :
    define environment (some box) result box = result :=
  Function.update_self ..

theorem define_of_ne {environment : Box → V} {box other : Box} (apart : other ≠ box) (result : V) :
    define environment (some box) result other = environment other :=
  Function.update_of_ne apart ..

/-- Execute an operation; nothing when it is a guard that fails. -/
def execute (op : Operation) (environment : Box → V) (state : S) : Option ((Box → V) × S) :=
  let args := meaning.values environment op.args
  if !Unrolling.isRepeated op then some (environment, state)
  else if op.isGuard && !meaning.passes op.opcode op.descriptor args state then none
  else
    let (result, state) :=
      meaning.perform op.opcode op.descriptor (op.result.map Box.type) args state
    some (define environment op.result result, state)

/-- Run operations one after the other, from the first to the last or to the first guard that
fails. -/
def runBody : List Operation → (Box → V) → S → Ending Nat (Box → V) V S
  | [], environment, state => .finished environment state
  | op :: rest, environment, state =>
    match meaning.execute op environment state with
    | none => .left 0 (op.frames.map (meaning.values environment)) state
    | some (environment, state) => (runBody rest environment state).relocate (· + 1)

/-- Bind the boxes of the label to the values that the loop jumps with, all of which are read
first. -/
def rebind (label closing : Operation) (environment : Box → V) : Box → V :=
  let carried := (label.args.zip closing.args).filterMap fun (parameter, value) =>
    parameter.box?.map fun box => (box, meaning.value environment value)
  carried.foldl (fun environment (box, value) => Function.update environment box value) environment

/-- Go on after the body was run: run it a number of further times, with the label's boxes bound
anew each time.  A run that leaves does so in an iteration, at a position of the body. -/
def goOn (label closing : Operation) (body : List Operation) :
    Nat → (Box → V) → S → Ending (Nat × Nat) (List V) V S
  | 0, environment, state => .finished (meaning.values environment closing.args) state
  | count + 1, environment, state =>
    ((meaning.runBody body (meaning.rebind label closing environment) state).relocate
      fun position => (0, position)).andThen fun environment state =>
        (goOn label closing body count environment state).relocate
          fun place => (place.1 + 1, place.2)

/-- Run a loop: its body once and then `count` further times. -/
def runLoop (label closing : Operation) (body : List Operation) (count : Nat)
    (environment : Box → V) (state : S) : Ending (Nat × Nat) (List V) V S :=
  ((meaning.runBody body environment state).relocate fun position => (0, position)).andThen
    fun environment state => (meaning.goOn label closing body count environment state).relocate
      fun place => (place.1 + 1, place.2)

/-- How a loop goes on depends on the values that it jumps with alone. -/
theorem goOn_congr {closing jump : Operation} (same : closing.args = jump.args) (label : Operation)
    (body : List Operation) (count : Nat) :
    meaning.goOn label closing body count = meaning.goOn label jump body count := by
  have rebinds : meaning.rebind label closing = meaning.rebind label jump := by
    unfold rebind
    rw [same]
  induction count with
  | zero =>
    funext environment state
    rw [goOn, goOn, same]
  | succ count ih =>
    funext environment state
    rw [goOn, goOn, rebinds, ih]

/-! ## Cutting a body -/

theorem runBody_append (front rest : List Operation) (environment : Box → V) (state : S) :
    meaning.runBody (front ++ rest) environment state =
      (meaning.runBody front environment state).andThen fun environment state =>
        (meaning.runBody rest environment state).relocate (front.length + ·) := by
  induction front generalizing environment state with
  | nil =>
    have same : (([] : List Operation).length + ·) = id := funext Nat.zero_add
    rw [List.nil_append, runBody, Ending.andThen, same, Ending.relocate_id]
  | cons op front ih =>
    rw [List.cons_append, runBody, runBody]
    cases meaning.execute op environment state with
    | none => rfl
    | some after =>
      dsimp only
      rw [ih]
      cases meaning.runBody front after.1 after.2 with
      | left position frames state => rfl
      | finished environment state =>
        change ((meaning.runBody rest environment state).relocate _).relocate _ = _
        rw [Ending.relocate_relocate]
        refine congrArg (Ending.relocate · _) (funext fun position => ?_)
        simp only [Function.comp_apply, List.length_cons]
        omega

theorem execute_of_not_isRepeated {op : Operation} (skipped : isRepeated op = false)
    (environment : Box → V) (state : S) :
    meaning.execute op environment state = some (environment, state) := by
  unfold execute
  rw [skipped]
  rfl

theorem execute_of_isRepeated {op : Operation} (kept : isRepeated op)
    (environment : Box → V) (state : S) :
    meaning.execute op environment state =
      if op.isGuard && !meaning.passes op.opcode op.descriptor (meaning.values environment op.args)
          state then none
      else
        let performed := meaning.perform op.opcode op.descriptor (op.result.map Box.type)
          (meaning.values environment op.args) state
        some (define environment op.result performed.1, performed.2) := by
  unfold execute
  rw [kept]
  rfl

/-- What is not repeated does nothing, so a body may be run without it. -/
theorem runBody_filter (body : List Operation) (environment : Box → V) (state : S) :
    meaning.runBody (body.filter isRepeated) environment state =
      (meaning.runBody body environment state).relocate (repeatedBefore body) := by
  induction body generalizing environment state with
  | nil => rfl
  | cons op rest ih =>
    cases kept : isRepeated op with
    | false =>
      rw [List.filter_cons_of_neg (by simp [kept]), ih, runBody,
        meaning.execute_of_not_isRepeated kept, Ending.relocate_relocate]
      refine congrArg (Ending.relocate · _) (funext fun position => ?_)
      simp [repeatedBefore, kept]
    | true =>
      rw [List.filter_cons_of_pos kept, runBody, runBody]
      cases meaning.execute op environment state with
      | none => rfl
      | some after =>
        dsimp only
        rw [ih, Ending.relocate_relocate, Ending.relocate_relocate]
        refine congrArg (Ending.relocate · _) (funext fun position => ?_)
        simp [repeatedBefore, kept]

end Interpretation

end LinearTrace
