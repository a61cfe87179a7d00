import Mathlib.Data.List.Basic
import LinearTrace.Proofs.Loop
import LinearTrace.Proofs.Scope.Sequence

/-!
# Running copies of a body

The copies of a body, with new boxes for the results and with the label's boxes
standing for what the previous iteration jumps with, run like further iterations
of the body: they define the same values under other names, change the state
alike, and fail at the copy of the guard that fails, with the same frames.
-/

namespace LinearTrace

open List Unrolling Ending Std.HashMap Function

universe w x

namespace Unrolling

variable {op : Operation} {box : Box}

/-! ## Copies -/

section

variable (state : Unrolling)

include state

theorem copy_of_void (isVoid : op.result = none) :
    (state.copy op).1.result = none ∧ (state.copy op).2 = state := by
  unfold copy
  rw [isVoid]
  exact ⟨rfl, rfl⟩

theorem copy_of_result (result : op.result = some box) :
    (state.copy op).1.result = some ⟨state.supply.next, box.type⟩ ∧ (state.copy op).2 =
        { renamed := state.renamed.insert box (.box ⟨state.supply.next, box.type⟩)
          supply := ⟨state.supply.next + 1⟩ } := by
  unfold copy
  rw [result]
  exact ⟨rfl, rfl⟩

theorem copy_result_type (op : Operation) :
    (state.copy op).1.result.map Box.type = op.result.map Box.type := by
  cases result : op.result with
  | none => rw [(state.copy_of_void result).1]
  | some box => rw [(state.copy_of_result result).1]; rfl

theorem length_copyAll (ops : List Operation) : (state.copyAll ops).1.length = ops.length := by
  induction ops generalizing state with
  | nil => rfl
  | cons op rest ih => exact congrArg (· + 1) (ih (state.copy op).2)

theorem rename_copy (op : Operation) {value : Value}
    (apart : ∀ box, op.result = some box → value ≠ .box box) :
    (state.copy op).2.rename value = state.rename value := by
  cases result : op.result with
  | none => rw [(state.copy_of_void result).2]
  | some box =>
    rw [(state.copy_of_result result).2]
    cases value with
    | const literal => rfl
    | box other =>
      have different : box ≠ other := fun same => apart box result (congrArg Value.box same.symm)
      exact getD_insert.trans (if_neg (by simpa using different))

theorem rename_copy_result (result : op.result = some box) :
    (state.copy op).2.rename (.box box) = .box ⟨state.supply.next, box.type⟩ := by
  rw [(state.copy_of_result result).2]
  exact getD_insert_self

theorem frames_copy (isGuard : op.isGuard) (stays : op.exitsEarly = false) :
    (state.copy op).1.frames = op.frames.map (List.map (state.copy op).2.rename) := by
  have snapshot : (state.copy op).1.snapshot =
      op.snapshot.map fun snapshot => (snapshot.rename (state.copy op).2.rename).snapshot := by
    change (if op.isGuard && !op.exitsEarly then _ else _) = _
    rw [isGuard, stays]
    rfl
  unfold Operation.frames
  rw [snapshot]
  cases op.snapshot with
  | none => rfl
  | some snapshot => exact Snapshot.frames_rename _ snapshot

end

end Unrolling

/-! ## Running copies -/

namespace Interpretation

variable {V : Type w} {S : Type x} {meaning : Interpretation V S} {bound : Nat}
  {unrolling : Unrolling} {environment unrolled : Box → V} {state : S} {op : Operation}

/-- The unrolled run has the value of every box of the loop in what the box stands for. -/
structure Follows (meaning : Interpretation V S) (bound : Nat) (unrolling : Unrolling)
    (environment unrolled : Box → V) : Prop where
  above : bound ≤ unrolling.supply.next
  /-- Nothing stands for a box that is still to come. -/
  old : ∀ (box : Box) (value : Value), unrolling.renamed[box]? = some value →
    value.IsBelow unrolling.supply.next
  same : ∀ box : Box, box.id < bound →
    meaning.value unrolled (unrolling.rename (.box box)) = environment box

namespace Follows

section

variable (follows : meaning.Follows bound unrolling environment unrolled)

include follows

theorem value {value : Value} (below : value.IsBelow bound) :
    meaning.value unrolled (unrolling.rename value) = meaning.value environment value := by
  cases value with
  | const literal => rfl
  | box box => exact follows.same box (below box rfl)

theorem values {operands : List Value} (below : ∀ value ∈ operands, value.IsBelow bound) :
    meaning.values unrolled (operands.map unrolling.rename) =
      meaning.values environment operands := by
  unfold Interpretation.values
  rw [List.map_map]
  exact map_congr_left fun value member => follows.value (below value member)

theorem isBelow_rename {value : Value} (below : value.IsBelow bound) :
    (unrolling.rename value).IsBelow unrolling.supply.next := by
  cases value with
  | const literal => exact fun box isBox => by cases isBox
  | box box =>
    unfold rename
    dsimp only
    rw [getD_eq_getD_getElem?]
    cases entry : unrolling.renamed[box]? with
    | none =>
      rintro other ⟨⟩
      exact Nat.lt_of_lt_of_le (below box rfl) follows.above
    | some value => exact follows.old box value entry

/-- Both runs define the result of an operation, the unrolled one under a new name. -/
theorem define (result : V) :
    meaning.Follows bound (unrolling.copy op).2 (define environment op.result result)
      (Interpretation.define unrolled (unrolling.copy op).1.result result) := by
  cases isResult : op.result with
  | none =>
    rw [(unrolling.copy_of_void isResult).1, (unrolling.copy_of_void isResult).2]
    exact follows
  | some box =>
    have supply : (unrolling.copy op).2.supply.next = unrolling.supply.next + 1 := by
      rw [(unrolling.copy_of_result isResult).2]
    rw [(unrolling.copy_of_result isResult).1]
    refine ⟨?_, ?_, ?_⟩
    · rw [supply]
      exact Nat.le_succ_of_le follows.above
    · intro other value entry fresh isBox
      rw [supply]
      rw [(unrolling.copy_of_result isResult).2, Std.HashMap.getElem?_insert] at entry
      split at entry
      · cases entry
        cases isBox
        exact Nat.lt_succ_self _
      · exact Nat.lt_succ_of_lt (follows.old other value entry fresh isBox)
    intro other otherBelow
    by_cases same : other = box
    · subst same
      rw [unrolling.rename_copy_result isResult, define_self]
      exact define_self ..
    have apart : ∀ box, op.result = some box → Value.box other ≠ .box box := by
      rintro renamed isRenamed ⟨⟩
      cases isResult.symm.trans isRenamed
      exact same rfl
    rw [unrolling.rename_copy op apart, define_of_ne same,
      ← follows.same other otherBelow]
    -- What the box stands for is older than the new name.
    have isOld : (unrolling.rename (.box other)).IsBelow unrolling.supply.next := by
      refine follows.isBelow_rename ?_
      rintro _ ⟨⟩
      exact otherBelow
    cases renamed : unrolling.rename (.box other) with
    | const literal => rfl
    | box older =>
      rw [renamed] at isOld
      refine define_of_ne ?_ result
      rintro rfl
      exact Nat.lt_irrefl _ (isOld _ rfl)

theorem execute (repeated : isRepeated op)
    (args : ∀ value ∈ op.args, value.IsBelow bound) (state : S) :
    (meaning.execute op environment state = none ∧
      meaning.execute (unrolling.copy op).1 unrolled state = none) ∨
    ∃ further furtherUnrolled after,
      meaning.execute op environment state = some (further, after) ∧
      meaning.execute (unrolling.copy op).1 unrolled state = some (furtherUnrolled, after) ∧
      meaning.Follows bound (unrolling.copy op).2 further furtherUnrolled := by
  have isRepeated : isRepeated (unrolling.copy op).1 = true := repeated
  have isGuard : (unrolling.copy op).1.isGuard = op.isGuard := rfl
  have isOpcode : (unrolling.copy op).1.opcode = op.opcode := rfl
  have isDescriptor : (unrolling.copy op).1.descriptor = op.descriptor := rfl
  have areArgs : (unrolling.copy op).1.args = op.args.map unrolling.rename := rfl
  rw [meaning.execute_of_isRepeated repeated, meaning.execute_of_isRepeated isRepeated, isGuard,
    isOpcode, isDescriptor, areArgs, unrolling.copy_result_type, follows.values args]
  by_cases fails : (op.isGuard && !meaning.passes op.opcode op.descriptor
      (meaning.values environment op.args) state) = true
  · rw [if_pos fails, if_pos fails]
    exact .inl ⟨rfl, rfl⟩
  · rw [if_neg fails, if_neg fails]
    exact .inr ⟨_, _, _, rfl, rfl, follows.define _⟩

theorem frames (isGuard : op.isGuard) (stays : op.exitsEarly = false)
    (snapshot : ∀ value ∈ op.failArgs, value.IsBelow bound ∧ ∀ box, op.result = some box → value ≠
      .box box) :
    (unrolling.copy op).1.frames.map (meaning.values unrolled) =
      op.frames.map (meaning.values environment) := by
  rw [unrolling.frames_copy isGuard stays, List.map_map]
  refine map_congr_left fun frame isFrame => ?_
  have members : ∀ value ∈ frame, value ∈ op.failArgs :=
    fun value member => op.mem_failArgs_of_frame isFrame member
  have renamed : frame.map (unrolling.copy op).2.rename = frame.map unrolling.rename :=
    map_congr_left fun value member =>
      unrolling.rename_copy op (snapshot value (members value member)).2
  rw [comp_apply, renamed]
  exact follows.values fun value member => (snapshot value (members value member)).1

end

end Follows

/-! ## Running copied bodies -/

/-- Two runs of bodies end alike: both leave at the same position with the same frames, or both
finish, in related environments. -/
inductive EndsAlike (related : (Box → V) → (Box → V) → Prop) :
    Ending Nat (Box → V) V S → Ending Nat (Box → V) V S → Prop where
  | finished {first second : Box → V} (isRelated : related first second) (state : S) :
      EndsAlike related (.finished first state) (.finished second state)
  | left (position : Nat) (frames : List (List V)) (state : S) :
      EndsAlike related (.left position frames state) (.left position frames state)

theorem EndsAlike.relocate {related : (Box → V) → (Box → V) → Prop}
    {first second : Ending Nat (Box → V) V S} (alike : EndsAlike related first second)
    (onto : Nat → Nat) : EndsAlike related (first.relocate onto) (second.relocate onto) := by
  cases alike with
  | finished isRelated state => exact .finished isRelated state
  | left position frames state => exact .left (onto position) frames state

/-- What unrolling needs to know about an operation of the body. -/
structure IsCopyable (bound : Nat) (op : Operation) : Prop where
  uses : ∀ value ∈ op.uses, value.IsBelow bound
  /-- A snapshot does not name the result of its own guard. -/
  apart : ∀ value ∈ op.failArgs, ∀ box, op.result = some box → value ≠ .box box

theorem isGuard_of_execute_eq_none {environment : Box → V} {state : S}
    (fails : meaning.execute op environment state = none) : op.isGuard := by
  cases kept : isRepeated op with
  | false =>
    rw [meaning.execute_of_not_isRepeated kept] at fails
    cases fails
  | true =>
    rw [meaning.execute_of_isRepeated kept] at fails
    split at fails
    next guards => exact (Bool.and_eq_true_iff.mp guards).1
    · cases fails

section

variable (follows : meaning.Follows bound unrolling environment unrolled)

include follows

theorem Follows.runBody {ops : List Operation}

    (repeated : ∀ op ∈ ops, isRepeated op) (stays : ∀ op ∈ ops, op.exitsEarly = false)
    (copyable : ∀ op ∈ ops, IsCopyable bound op) (state : S) :
    EndsAlike (meaning.Follows bound (unrolling.copyAll ops).2)
      (meaning.runBody ops environment state)
      (meaning.runBody (unrolling.copyAll ops).1 unrolled state) := by
  induction ops generalizing unrolling environment unrolled state with
  | nil => exact .finished follows state
  | cons op rest ih =>
    have first : op ∈ op :: rest := mem_cons_self
    have isCopyable := copyable op first
    change EndsAlike _ _ (meaning.runBody ((unrolling.copy op).1 ::
      ((unrolling.copy op).2.copyAll rest).1) unrolled state)
    rw [Interpretation.runBody, Interpretation.runBody]
    rcases follows.execute (repeated op first)
      (fun value member => isCopyable.uses value (mem_append_left _ member)) state with ⟨fails, copyFails⟩ |
        ⟨further, furtherUnrolled, after, passes, copyPasses, follows⟩
    · rw [fails, copyFails]
      rw [follows.frames (isGuard_of_execute_eq_none fails) (stays op first) fun value member =>
        ⟨isCopyable.uses value (mem_append_right _ member), isCopyable.apart value member⟩]
      exact .left 0 _ state
    · rw [passes, copyPasses]
      refine EndsAlike.relocate ?_ (· + 1)
      exact ih follows (fun op member => repeated op (mem_cons_of_mem _ member))
        (fun op member => stays op (mem_cons_of_mem _ member))
        (fun op member => copyable op (mem_cons_of_mem _ member)) after

theorem Follows.bind (box : Box)
    {value : Value} (old : value.IsBelow unrolling.supply.next) :
    meaning.Follows bound { unrolling with renamed := unrolling.renamed.insert box value }
      (update environment box (meaning.value unrolled value)) unrolled := by
  refine ⟨follows.above, fun other found entry => ?_, fun other below => ?_⟩
  · rcases eq_or_getElem?_of_insert entry with ⟨_, rfl⟩ | ⟨_, entry⟩
    · exact old
    · exact follows.old other found entry
  change meaning.value unrolled ((unrolling.renamed.insert box value).getD other (.box other)) = _
  rw [getD_insert]
  by_cases same : box = other
  · subst same
    rw [if_pos (beq_self_eq_true box), update_self]
  · rw [if_neg (by simpa using same), update_of_ne (Ne.symm same)]
    exact follows.same other below

theorem Follows.bindAll {bindings : List (Box × Value)}

    (old : ∀ binding ∈ bindings, binding.2.IsBelow unrolling.supply.next) :
    meaning.Follows bound
      { unrolling with
        renamed := bindings.foldl (fun renamed (box, value) => renamed.insert box value)
          unrolling.renamed }
      ((bindings.map fun binding => (binding.1, meaning.value unrolled binding.2)).foldl
        (fun environment (box, value) => update environment box value) environment)
      unrolled := by
  induction bindings generalizing unrolling environment with
  | nil => exact follows
  | cons binding rest ih =>
    exact ih (follows.bind binding.1 (old binding mem_cons_self))
      fun other member => old other (mem_cons_of_mem _ member)

theorem Follows.carry
    (label : Operation) {jump : Operation} (args : ∀ value ∈ jump.args, value.IsBelow bound) :
    meaning.Follows bound (unrolling.carry label jump) (meaning.rebind label jump environment)
      unrolled := by
  let pairs := label.args.zip jump.args
  let bindings : List (Box × Value) := pairs.filterMap fun pair =>
    pair.1.box?.map fun box => (box, unrolling.rename pair.2)
  have jumped : ∀ pair ∈ pairs, pair.2 ∈ jump.args := fun pair member =>
    (of_mem_zip member).2
  have old : ∀ binding ∈ bindings, binding.2.IsBelow unrolling.supply.next := by
    intro binding member
    obtain ⟨⟨parameter, value⟩, isPair, isBound⟩ := mem_filterMap.mp member
    obtain ⟨box, _, rfl⟩ := Option.map_eq_some_iff.mp isBound
    exact follows.isBelow_rename (args value (jumped _ isPair))
  have read : (pairs.filterMap fun pair =>
      pair.1.box?.map fun box => (box, meaning.value environment pair.2)) =
        bindings.map fun binding => (binding.1, meaning.value unrolled binding.2) := by
    rw [map_filterMap]
    refine filterMap_congr fun pair member => ?_
    rw [Option.map_map, ← follows.value (args pair.2 (jumped _ member))]
    rfl
  have bound := follows.bindAll old
  rw [← read] at bound
  exact bound

/-! ## Running all iterations -/

/-- Where the copies of an iteration's operations stand among all copies. -/
def copyPlace (body : List Operation) (place : Nat × Nat) : Nat :=
  place.1 * (body.filter Unrolling.isRepeated).length + Unrolling.repeatedBefore body place.2

theorem Follows.goOn {jump : Operation} {body : List Operation}
    (label : Operation)
    (args : ∀ value ∈ jump.args, value.IsBelow bound)
    (stays : ∀ op ∈ body, isRepeated op → op.exitsEarly = false)
    (copyable : ∀ op ∈ body, IsCopyable bound op) (count : Nat) (state : S) :
    let copied := iterate label jump (body.filter isRepeated) count unrolling
    ((meaning.runBody copied.1 unrolled state).andThen fun unrolled state =>
        .finished (meaning.values unrolled (jump.args.map copied.2.rename)) state) =
      (meaning.goOn label jump body count environment state).relocate (copyPlace body) := by
  induction count generalizing unrolling environment unrolled state with
  | zero => exact congrArg (finished · state) (follows.values args)
  | succ count ih =>
    let repeated := body.filter isRepeated
    let copies := (unrolling.carry label jump).copyAll repeated
    let further := iterate label jump repeated count copies.2
    change ((meaning.runBody (copies.1 ++ further.1) unrolled state).andThen fun unrolled state =>
      .finished (meaning.values unrolled (jump.args.map further.2.rename)) state) = _
    have isMember : ∀ op ∈ repeated, op ∈ body ∧ isRepeated op = true :=
      fun op member => mem_filter.mp member
    have alike := (follows.carry label args).runBody (fun op member => (isMember op member).2)
      (fun op member => stays op (isMember op member).1 (isMember op member).2)
      (fun op member => copyable op (isMember op member).1) state
    rw [meaning.runBody_filter] at alike
    rw [Interpretation.goOn, meaning.runBody_append, andThen_andThen,
      relocate_andThen, relocate_relocate]
    have length : copies.1.length = repeated.length := length_copyAll ..
    generalize meaning.runBody copies.1 unrolled state = copied at alike
    cases ran : meaning.runBody body (meaning.rebind label jump environment) state with
    | left position frames after =>
      rw [ran] at alike
      cases alike
      change left _ frames after = left (copyPlace body (0, position)) frames after
      rw [copyPlace, Nat.zero_mul, Nat.zero_add]
    | finished reached after =>
      rw [ran] at alike
      cases alike with
      | finished follows =>
        rename_i reachedUnrolled
        change ((meaning.runBody further.1 reachedUnrolled after).relocate
          (copies.1.length + ·)).andThen _ =
            ((meaning.goOn label jump body count reached after).relocate _).relocate _
        have step := congrArg (relocate (copies.1.length + ·)) (ih follows after)
        rw [relocate_andThen] at step
        refine step.trans ?_
        rw [relocate_relocate, relocate_relocate]
        refine congrArg (relocate · _) (funext fun place => ?_)
        simp only [comp_apply, copyPlace, length, Nat.add_mul, Nat.one_mul, repeated]
        omega

end

end Interpretation

end LinearTrace
