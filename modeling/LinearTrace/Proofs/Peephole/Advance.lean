import LinearTrace.Proofs.Peephole.Arithmetic
import LinearTrace.Proofs.Peephole.GuardStep

/-!
# One step of the walk

The run of the output follows the run of the trace: it has the value of every box
that is not replaced, under the same name.  A step leaves the output alone, adds
one operation that does what the handled operation does, or strengthens an
earlier guard.
-/

namespace LinearTrace

open Option Operation

variable {heap : Heap} {valuation reached : Valuation} {facts before after : Facts}
  {op : Operation} {box : Box} {excuse : Prop}

variable {value : Value} {literal : Const}

namespace Facts

open Replacements

/-- The run of the output has come as far as the run of the trace. -/
structure Follows (heap : Heap) (facts : Facts) (valuation reached : Valuation) : Prop where
  holds : facts.Holds heap valuation
  tracks : facts.Tracks valuation reached
  above : valuation.Extends reached

section

variable (follows : facts.Follows heap valuation reached)

include follows

theorem Follows.value_of_isFinal (final : IsFinal facts.replacements value)
    (defined : valuation.value value = some literal) : reached.value value = some literal := by
  cases value with
  | const known => exact defined
  | box box => exact follows.tracks box literal defined final

theorem Follows.value_resolve (defined : valuation.value value = some literal) :
    reached.value (facts.resolve value) = some literal := by
  refine follows.value_of_isFinal (isFinal_resolve follows.holds.acyclic value) ?_
  rw [follows.holds.value_resolve]
  exact defined

theorem Follows.values_resolve {values : List Value} {literals : List Const}
    (defined : valuation.values values = some literals) :
    reached.values (values.map facts.resolve) = some literals :=
  Valuation.values_map facts.resolve (fun _ _ => follows.value_resolve) defined

theorem Follows.checked_resolve {verdict : Bool}
    (checked : op.checked heap valuation = some verdict) :
    (facts.resolveOperation op).checked heap reached = some verdict := by
  obtain ⟨literals, defined, decided⟩ := bind_eq_some_iff.mp checked
  change (reached.values (op.args.map facts.resolve)).bind (op.opcode.check heap) = some verdict
  rw [follows.values_resolve defined]
  exact decided

end

theorem frames_resolveOperation (isGuard : op.isGuard) :
    (facts.resolveOperation op).frames = op.frames.map (List.map facts.resolve) := by
  unfold resolveOperation frames
  rw [if_pos isGuard]
  cases op.snapshot with
  | none => rfl
  | some snapshot => exact Snapshot.frames_rename facts.resolve snapshot

theorem Follows.frames_resolve (follows : facts.Follows heap valuation reached)
    (isGuard : op.isGuard) {literals : List (List Const)}
    (defined : valuation.frames op.frames = some literals) :
    reached.frames (facts.resolveOperation op).frames = some literals := by
  rw [frames_resolveOperation isGuard]
  exact Valuation.frames_map facts.resolve (fun _ _ => follows.value_resolve) defined

/-- Learning takes no box away from the run of the output. -/
theorem Follows.learn (follows : before.Follows heap valuation reached)
    (replaced : ∀ box : Box, after.replacements[box]? = none → before.replacements[box]? = none)
    (holds : after.Holds heap valuation) : after.Follows heap valuation reached :=
  ⟨holds, fun box literal defined absent =>
    follows.tracks box literal defined (replaced box absent), follows.above⟩

end Facts

open Facts

/-- What a step does to the output, and why the run of the output keeps following. -/
inductive Advance (heap : Heap) (op : Operation) (before after : Facts) : Prop where
  | passed (output : after.output = before.output)
      (sound : ∀ valuation reached effect, before.Follows heap valuation reached →
        op.FreshIn valuation → op.execute heap valuation = some effect →
          ∃ next, effect = .next next ∧ next.Extends valuation ∧ after.Follows heap next reached)
  | appended {emitted : Operation} (output : after.output = before.output.push emitted)
      (isGuard : emitted.isGuard = op.isGuard)
      (sound : ∀ valuation reached effect, before.Follows heap valuation reached →
        op.FreshIn valuation → op.execute heap valuation = some effect →
          (∃ next further, effect = .next next ∧ next.Extends valuation ∧
            emitted.execute heap reached = some (.next further) ∧
              after.Follows heap next further) ∨
          ∃ frames, effect = .leave frames ∧ emitted.execute heap reached = some (.leave frames))
      (frames : op.isGuard = true → ∀ valuation reached literals,
        before.Follows heap valuation reached → valuation.frames op.frames = some literals →
          reached.frames emitted.frames = some literals)
  | merged {position : Nat} {earlier stronger : Operation} (isGuard : op.isGuard = true)
      (known : ¬ before.NoPointers) (found : before.output[position]? = some earlier)
      (output : after.output = before.output.setIfInBounds position stronger)
      (strengthens : stronger.Strengthens heap earlier)
      (decides : ∀ valuation reached verdict, before.Holds heap valuation →
        valuation.Extends reached → earlier.checked heap reached = some true →
          op.checked heap valuation = some verdict → stronger.checked heap reached = some verdict)
      (sound : ∀ valuation reached, before.Follows heap valuation reached →
        op.checked heap valuation = some true → after.Follows heap valuation reached)

/-- An advance after which the facts are well-formed and of the same target. -/
structure Stepped (heap : Heap) (op : Operation) (before after : Facts) : Prop where
  advance : Advance heap op before after
  coherent : after.Coherent
  target : after.target = before.target

/-! ## Guards and claims -/

theorem stepped_of_handled (isGuard : op.isGuard) (handled : Handled heap op before after) :
    Stepped heap op before after := by
  have learn : ∀ {valuation reached}, before.Follows heap valuation reached →
      op.checked heap valuation = some true → after.Follows heap valuation reached :=
    fun follows passes => follows.learn handled.replaced (handled.holds _ follows.holds passes)
  refine ⟨?_, handled.coherent, handled.target⟩
  cases handled.outcome with
  | dropped output passes =>
    refine .passed output fun valuation reached effect follows _ executed => ?_
    rcases op.cases_execute_guard isGuard executed with ⟨checked, rfl⟩ | ⟨_, checked, _⟩
    · exact ⟨valuation, rfl, Valuation.Extends.refl _, learn follows checked⟩
    · cases passes valuation false follows.holds checked
  | appended output =>
    have stays : (before.resolveOperation op).isGuard = true := isGuard
    refine .appended output rfl ?_
      fun _ _ _ _ follows defined => follows.frames_resolve isGuard defined
    intro valuation reached effect follows _ executed
    rcases op.cases_execute_guard isGuard executed with ⟨checked, rfl⟩ |
      ⟨frames, checked, defined, rfl⟩
    · exact .inl ⟨valuation, reached, rfl, Valuation.Extends.refl _,
        execute_of_checked stays (follows.checked_resolve checked),
        learn follows checked⟩
    · exact .inr ⟨frames, rfl, execute_of_failed stays
        (follows.checked_resolve checked) (follows.frames_resolve isGuard defined)⟩
  | merged known found output strengthens decides =>
    refine .merged isGuard (fun none => ?_) found output strengthens decides
      fun _ _ follows passes => learn follows passes
    rw [none] at known
    cases known

theorem stepped_of_learned (opcode : op.opcode = .recordExactClass)
    (learned : Learned heap op before after) (output : after.output = before.output) :
    Stepped heap op before after := by
  refine ⟨.passed output ?_, learned.coherent, learned.target⟩
  intro valuation reached effect follows _ executed
  rw [op.execute_claim opcode] at executed
  obtain ⟨passes, checked, executed⟩ := bind_eq_some_iff.mp executed
  cases passes with
  | true =>
    cases executed
    exact ⟨valuation, rfl, Valuation.Extends.refl _,
      follows.learn learned.replaced (learned.holds valuation follows.holds checked)⟩
  | false => cases executed

/-! ## Values -/

theorem Facts.Follows.define (follows : before.Follows heap valuation reached)
    (replaced : ∀ box : Box, after.replacements[box]? = none → before.replacements[box]? = none)
    (holds : after.Holds heap (valuation.define box literal)) :
    after.Follows heap (valuation.define box literal) (reached.define box literal) := by
  refine ⟨holds, fun other value defined absent => ?_, follows.above.define box literal⟩
  by_cases same : other = box
  · subst same
    rw [Valuation.define_self] at defined ⊢
    exact defined
  · rw [Valuation.define_of_ne same] at defined ⊢
    exact follows.tracks other value defined (replaced other absent)

theorem Facts.Follows.computed (follows : facts.Follows heap valuation reached)
    (final : ∀ value ∈ op.args, Replacements.IsFinal facts.replacements value)
    (computed : op.computed valuation = some literal) : op.computed reached = some literal := by
  obtain ⟨literals, defined, evaluated⟩ := bind_eq_some_iff.mp computed
  have unresolved : op.args.map facts.resolve = op.args :=
    (List.map_congr_left fun value member => resolve_of_isFinal (final value member)).trans
      (List.map_id op.args)
  have reads := follows.values_resolve defined
  rw [unresolved] at reads
  rw [Operation.computed, reads]
  exact evaluated

theorem stepped_of_defines (coherent : before.Coherent) (integral : op.opcode.isIntegral)
    (result : op.result = some box) (defines : Defines heap before after box op.computed) :
    Stepped heap op before after ∧ after.pointers = before.pointers := by
  rcases defines with ⟨learns, sound⟩ | ⟨emitted, emittedResult, emittedIntegral, grows, sound⟩
  · refine ⟨⟨.passed learns.output ?_, coherent.learn learns, learns.target⟩, learns.pointers⟩
    intro valuation reached effect follows fresh executed
    have fresh := fresh box result
    rw [op.execute_value integral result] at executed
    obtain ⟨literal, computed, rfl⟩ := map_eq_some_iff.mp executed
    obtain ⟨holds, replaced⟩ := sound valuation literal follows.holds fresh computed
    have extended := Valuation.extends_define fresh literal
    exact ⟨_, rfl, extended, holds, follows.tracks.define_of_replaced learns replaced literal,
      extended.trans follows.above⟩
  have isGuard : emitted.isGuard = op.isGuard := by
    rw [Operation.isGuard, Operation.isGuard, (Opcode.plain_of_isIntegral integral).1,
      (Opcode.plain_of_isIntegral emittedIntegral).1]
  refine ⟨⟨.appended grows.output isGuard ?_ ?_, coherent.grow grows, grows.target⟩,
    grows.pointers⟩
  · intro valuation reached effect follows fresh executed
    have fresh := fresh box result
    rw [op.execute_value integral result] at executed
    obtain ⟨literal, computed, rfl⟩ := map_eq_some_iff.mp executed
    obtain ⟨holds, emittedComputed, final⟩ := sound valuation literal follows.holds fresh computed
    refine .inl ⟨_, reached.define box literal, rfl, Valuation.extends_define fresh literal, ?_,
      follows.define grows.replaced holds⟩
    rw [emitted.execute_value emittedIntegral emittedResult,
      follows.computed final emittedComputed]
    rfl
  · intro guard
    rw [Operation.isGuard, (Opcode.plain_of_isIntegral integral).1] at guard
    cases guard

namespace Peephole

variable {walk : Peephole}

theorem simplifyComparison?_of_void (isVoid : op.result = none) (facts : Facts) :
    facts.simplifyComparison? op = none := by
  unfold simplifyComparison?
  rw [isVoid]

/-- An operation on words, or a comparison of references, is handled soundly. -/
theorem step_value (coherent : walk.facts.Coherent)
    (describes : op.opcode.isPointerComparison → walk.facts.target.Describes heap)
    (integral : op.opcode.isIntegral) (result : op.result = some box) :
    Ensures excuse (step op) walk fun _ after =>
      Stepped heap op walk.facts after.facts ∧ after.facts.pointers = walk.facts.pointers := by
  refine .bind_currentFacts ?_
  split
  next verdict found =>
    exact (perform_defines walk (sound_simplifyComparison? integral result found)).weaken
      fun _ _ defines => stepped_of_defines coherent integral result defines
  have simplified : Ensures excuse
      (do perform (← liftM (walk.facts.simplify op))) walk fun _ after =>
        Stepped heap op walk.facts after.facts ∧ after.facts.pointers = walk.facts.pointers :=
    Ensures.bind_lift ((sound_simplify describes integral result).weaken fun verdict sound =>
      (perform_defines walk sound).weaken fun _ _ defines =>
        stepped_of_defines coherent integral result defines)
  cases opcode : op.opcode with
  | guardTrue | guardFalse | guardValue | guardIsNull | guardNonnull | guardIsObject
  | guardGcType | guardSubclass | guardClass | guardNonnullClass | guardNoException
  | recordExactClass | call | callPure | callLoopInvariant | condCall =>
    rw [opcode] at integral
    cases integral
  | _ => exact simplified

/-- A label is appended as it is, a jump with its operands resolved. -/
theorem step_frame (walk : Peephole) (opcode : op.opcode = .label ∨ op.opcode = .jump)
    (isVoid : op.result = none) :
    Ensures excuse (step op) walk fun _ after => after.facts = walk.facts.afterEmit op := by
  refine .bind_currentFacts ?_
  rw [simplifyComparison?_of_void isVoid]
  have keeps : walk.facts.simplify op = .ok (.keep op false) := by
    unfold simplify
    rcases opcode with opcode | opcode <;> rw [opcode, isVoid]
  have emits : Ensures excuse (do perform (← liftM (walk.facts.simplify op))) walk
      fun _ after => after.facts = walk.facts.afterEmit op := by
    rw [keeps]
    refine .bind_onFacts ?_ fun _ after emitted => emitted
    rw [Ensures, emit_void walk.facts isVoid]
    rfl
  rcases opcode with opcode | opcode <;> rw [opcode] <;> exact emits

/-- The guards of a trace of words are handled soundly whatever the target. -/
theorem step_integerGuard (coherent : walk.facts.Coherent) (noPointers : walk.facts.NoPointers)
    (opcode : op.opcode = .guardTrue ∨ op.opcode = .guardFalse ∨ op.opcode = .guardValue)
    (isVoid : op.result = none) :
    Ensures (walk.facts.Refutes heap op) (step op) walk fun _ after =>
      Stepped heap op walk.facts after.facts ∧ after.facts.NoPointers := by
  have kinds : op.isGuard = true ∧ op.opcode ≠ .guardIsObject := by
    unfold isGuard
    rcases opcode with opcode | opcode | opcode <;> rw [opcode] <;> decide
  have member : op.opcode ∈ [.guardTrue, .guardFalse, .guardValue] := by simpa using opcode
  have trusted : walk.facts.Trusted heap op := ⟨coherent, isVoid, .inl ⟨member, noPointers⟩⟩
  refine ((handles_step kinds.1).weaken fun _ after handles => ?_).excuse_by fun judges =>
    (judges trusted).resolve_right fun isObject => kinds.2 isObject.1
  exact ⟨stepped_of_handled kinds.1 (handles.handled trusted),
    handles.step.noPointers isVoid member noPointers⟩

/-- Every guard that the walk checks against what it knows is handled soundly; it is judged
wrongly at most where it asks about an object that the target does not list. -/
theorem step_guard (coherent : walk.facts.Coherent) (describes : walk.facts.target.Describes heap)
    (checked : op.opcode.isCheckedGuard) (isVoid : op.result = none) :
    Ensures (walk.facts.Refutes heap op ∨ walk.facts.Unlisted heap op) (step op) walk
      fun _ after => Stepped heap op walk.facts after.facts := by
  have isGuard : op.isGuard = true := Opcode.isGuard_of_isCheckedGuard checked
  have trusted : walk.facts.Trusted heap op := ⟨coherent, isVoid, .inr describes⟩
  exact ((handles_step isGuard).weaken fun _ _ handles =>
    stepped_of_handled isGuard (handles.handled trusted)).excuse_by fun judges =>
      (judges trusted).imp_right And.right

theorem step_claim (coherent : walk.facts.Coherent) (describes : walk.facts.target.Describes heap)
    (opcode : op.opcode = .recordExactClass) (isVoid : op.result = none) :
    Ensures (walk.facts.Refutes heap op) (step op) walk fun _ after =>
      Stepped heap op walk.facts after.facts := by
  refine .bind_currentFacts ?_
  rw [simplifyComparison?_of_void isVoid, opcode]
  exact (learned_recordExactClass coherent describes opcode).weaken
    fun _ _ both => stepped_of_learned opcode both.1 both.2

end Peephole

end LinearTrace
