import LinearTrace.Proofs.Facts.Emit

/-!
# What may become of a guard

A guard is dropped when the facts say that it passes, appended, or merged into an
earlier guard on the same reference.  A merged guard passes only where the
earlier one did, and on runs that reach it it decides as the new guard would.
-/

namespace LinearTrace

open Option Opcode

variable {heap : Heap} {valuation : Valuation} {facts : Facts} {op : Operation} {box : Box}
  {excuse : Prop}

variable {position : Nat} {verdict : Bool} {after : Facts} {value source : Value}
  {guard earlier stronger : Operation} {fact : PointerFact} {update : PointerFact → PointerFact}

/-! ## Checks -/

namespace Operation

theorem value_of_checked {test : Const → Bool}
    (checks : op.opcode.check heap = fun args => (args[0]?).map test)
    (checked : op.checked heap valuation = some verdict) :
    ∃ value literal, op.args[0]? = some value ∧ valuation.value value = some literal ∧
      verdict = test literal := by
  obtain ⟨literals, defined, decided⟩ := bind_eq_some_iff.mp checked
  rw [checks] at decided
  obtain ⟨literal, found, rfl⟩ := map_eq_some_iff.mp decided
  rw [Valuation.values_getElem? defined] at found
  obtain ⟨value, isFirst, valueIs⟩ := bind_eq_some_iff.mp found
  exact ⟨value, literal, isFirst, valueIs, rfl⟩

theorem reference_of_checked (question : List Const → UInt64 → Option Bool)
    (checks : op.opcode.check heap = fun args => onReference args (question args))
    (checked : op.checked heap valuation = some verdict) :
    ∃ value address literals, op.args[0]? = some value ∧
      valuation.value value = some (.ref address) ∧ valuation.values op.args = some literals ∧
      question literals address = some verdict := by
  obtain ⟨literals, defined, decided⟩ := bind_eq_some_iff.mp checked
  rw [checks] at decided
  obtain ⟨literal, found, decided⟩ := bind_eq_some_iff.mp decided
  obtain ⟨address, isRef, answer⟩ := bind_eq_some_iff.mp decided
  rw [Valuation.values_getElem? defined] at found
  obtain ⟨value, isFirst, valueIs⟩ := bind_eq_some_iff.mp found
  cases literal with
  | ref reference =>
    cases isRef
    exact ⟨value, address, literals, isFirst, valueIs, defined, answer⟩
  | int word => cases isRef
  | float number => cases isRef

theorem class_of_checked (question : UInt64 → UInt64 → Bool)
    (checks : op.opcode.check heap = fun args => onReference args fun address => do
      return question address (← addressArg args))
    (checked : op.checked heap valuation = some verdict) :
    ∃ value address classValue literal vtable, op.args[0]? = some value ∧
      valuation.value value = some (.ref address) ∧ op.args[1]? = some classValue ∧
      valuation.value classValue = some literal ∧ literal.address? = some vtable ∧
      verdict = question address vtable := by
  obtain ⟨value, address, literals, isFirst, valueIs, defined, answer⟩ :=
    reference_of_checked (fun args address => do
      return question address (← addressArg args)) checks checked
  obtain ⟨vtable, isAddress, answer⟩ := bind_eq_some_iff.mp answer
  obtain ⟨literal, found, isAddress⟩ := bind_eq_some_iff.mp isAddress
  rw [Valuation.values_getElem? defined] at found
  obtain ⟨classValue, isSecond, classIs⟩ := bind_eq_some_iff.mp found
  exact ⟨value, address, classValue, literal, vtable, isFirst, valueIs, isSecond, classIs,
    isAddress, (some.inj answer).symm⟩

/-- The stronger guard has the earlier one's frames, is defined where that is, and passes only
where that passes. -/
structure Strengthens (heap : Heap) (stronger earlier : Operation) : Prop where
  isGuard : stronger.isGuard = true
  wasGuard : earlier.isGuard = true
  frames : stronger.frames = earlier.frames
  checked : ∀ valuation passes, earlier.checked heap valuation = some passes →
    ∃ verdict, stronger.checked heap valuation = some verdict ∧ (verdict = true → passes = true)

/-- The guard established the fact about the box: that it is not null, or its class. -/
structure Establishes (guard : Operation) (box : Box) (fact : PointerFact) : Prop where
  first : guard.args[0]? = some (.box box)
  nonnull : fact.nullness = .nonnull
  kind : guard.opcode = .guardNonnull ∨
    (guard.opcode = .guardClass ∨ guard.opcode = .guardNonnullClass) ∧
      ∃ literal vtable, guard.args[1]? = some (.const literal) ∧ literal.address? = some vtable ∧
        fact.knownClass = some vtable

section

variable (establishes : guard.Establishes box fact)

include establishes

theorem Establishes.withNonnull : guard.Establishes box fact.withNonnull :=
  ⟨establishes.first, rfl, establishes.kind⟩

/-- Where no class is known yet, only a guard against null can have been remembered. -/
theorem Establishes.withClass (unknown : fact.knownClass = none) (vtable : UInt64) :
    guard.Establishes box (fact.withClass vtable) := by
  refine ⟨establishes.first, rfl, establishes.kind.imp_right ?_⟩
  rintro ⟨_, _, known, _, _, isKnown⟩
  rw [unknown] at isKnown
  cases isKnown

theorem Establishes.isGuard : guard.isGuard := by
  unfold Operation.isGuard
  rcases establishes.kind with opcode | ⟨opcode | opcode, _⟩ <;> rw [opcode] <;> rfl

/-- The guard passes on every reference that the fact is true of. -/
theorem Establishes.passes {passes : Bool} (checked : guard.checked heap valuation = some passes) :
    ∃ address, valuation box = some (.ref address) ∧
      (address ≠ 0 → (∀ vtable, fact.knownClass = some vtable →
        heap.classOf address = some vtable) → passes) := by
  rcases establishes.kind with opcode | ⟨opcode, literal, vtable, second, isAddress, known⟩
  · obtain ⟨value, address, _, first, valueIs, _, answer⟩ :=
      reference_of_checked (fun _ address => some (address != 0)) (by rw [opcode]; rfl) checked
    cases establishes.first.symm.trans first
    refine ⟨address, valueIs, fun nonnull _ => ?_⟩
    rw [← some.inj answer]
    exact bne_iff_ne.mpr nonnull
  · obtain ⟨value, address, classValue, known, found, first, valueIs, isSecond, classIs, isFound,
      rfl⟩ := class_of_checked (fun address vtable => heap.classOf address == some vtable)
        (by rcases opcode with opcode | opcode <;> rw [opcode] <;> rfl) checked
    cases establishes.first.symm.trans first
    cases second.symm.trans isSecond
    cases classIs
    cases isAddress.symm.trans isFound
    exact ⟨address, valueIs, fun _ agrees => beq_iff_eq.mpr (agrees vtable ‹_›)⟩

end

theorem checked_pair {literal expected : Const} (args : op.args = [.box box, .const expected])
    (defined : valuation box = some literal) :
    op.checked heap valuation = op.opcode.check heap [literal, expected] := by
  have values : valuation.values [.box box, .const expected] = some [literal, expected] :=
    Valuation.values_pair_eq_some.mpr ⟨literal, expected, rfl, defined, rfl⟩
  rw [checked, args, values]
  rfl

theorem computed_of_isGuard (isGuard : op.isGuard) (valuation : Valuation) :
    op.computed valuation = none := by
  have nothing : op.opcode.evaluate = fun _ => none := by
    unfold Operation.isGuard at isGuard
    cases opcode : op.opcode with
    | guardTrue | guardFalse | guardValue | guardClass | guardNonnull | guardIsNull
    | guardNonnullClass | guardNoException | guardIsObject | guardSubclass | guardGcType
    | guardNotInvalidated | guardFutureCondition | guardEarlyExit => rfl
    | _ =>
      rw [opcode] at isGuard
      cases isGuard
  rw [computed, nothing]
  exact bind_fun_none _

end Operation

/-! ## What a step may do with a guard -/

namespace Facts

open Replacements

/-- The replacements have no cycle, and the guards that may still be strengthened stand where the
facts say, as they are required to be. -/
structure Remembers (required : Operation → Box → PointerFact → Prop) (facts : Facts) : Prop where
  acyclic : Acyclic facts.replacements
  remembered : ∀ (box : Box) (fact : PointerFact) (position : Nat),
    facts.pointers[box]? = some fact → fact.lastGuard = some position →
      ∃ guard, facts.output[position]? = some guard ∧ required guard box fact

/-- The facts are well-formed whether or not they are true: a remembered guard has established what
is known. -/
abbrev Coherent (facts : Facts) : Prop :=
  facts.Remembers Operation.Establishes

/-- The output after a guard was handled. -/
inductive Outcome (heap : Heap) (op : Operation) (before after : Facts) : Prop where
  | dropped (output : after.output = before.output)
      (passes : ∀ valuation verdict, before.Holds heap valuation →
        op.checked heap valuation = some verdict → verdict = true)
  | appended (output : after.output = before.output.push (before.resolveOperation op))
  /-- On a run that passed the earlier guard, the stronger guard decides as the handled one. -/
  | merged {position : Nat} {earlier stronger : Operation} {box : Box} {fact : PointerFact}
      (known : before.pointers[box]? = some fact)
      (found : before.output[position]? = some earlier)
      (output : after.output = before.output.setIfInBounds position stronger)
      (strengthens : stronger.Strengthens heap earlier)
      (decides : ∀ valuation reached verdict, before.Holds heap valuation →
        valuation.Extends reached → earlier.checked heap reached = some true →
          op.checked heap valuation = some verdict →
            stronger.checked heap reached = some verdict)

/-- A step that learned what follows from a check having succeeded. -/
structure Learned (heap : Heap) (op : Operation) (before after : Facts) : Prop where
  coherent : after.Coherent
  target : after.target = before.target
  replaced : ∀ box : Box, after.replacements[box]? = none → before.replacements[box]? = none
  holds : ∀ valuation, before.Holds heap valuation → op.checked heap valuation = some true →
    after.Holds heap valuation

/-- A step that handled a guard. -/
structure Handled (heap : Heap) (op : Operation) (before after : Facts) : Prop
    extends Learned heap op before after where
  outcome : Outcome heap op before after

/-- The check succeeds in no run of which the facts are true. -/
def Refutes (heap : Heap) (facts : Facts) (op : Operation) : Prop :=
  ∀ valuation, ¬ (facts.Holds heap valuation ∧ op.checked heap valuation = some true)

/-- The guard asks whether a constant is an object, and the target does not list it although it
is one. -/
def Unlisted (heap : Heap) (facts : Facts) (op : Operation) : Prop :=
  ∃ source address, op.args[0]? = some source ∧ facts.resolve source = .const (.ref address) ∧
    facts.target.classOf? address = none ∧ heap.classOf address ≠ none

/-- No box is known to be a reference. -/
def NoPointers (facts : Facts) : Prop :=
  ∀ box : Box, facts.pointers[box]? = none

theorem remembers_start (required : Operation → Box → PointerFact → Prop) (target : Target)
    (trace : Trace) : (Facts.start target trace).Remembers required :=
  ⟨Replacements.acyclic_empty, fun box fact position entry _ => by simp [Facts.start] at entry⟩

section

variable {required : Operation → Box → PointerFact → Prop} (remembers : facts.Remembers required)

include remembers

theorem Remembers.learn (learns : facts.Learns after) : after.Remembers required where
  acyclic := learns.acyclic remembers.acyclic
  remembered := by
    rw [learns.pointers, learns.output]
    exact remembers.remembered

/-- Appending an operation, as long as no further guard is remembered. -/
theorem Remembers.push (acyclic : Acyclic after.replacements)
    (output : after.output = facts.output.push op) (pointers : ∀ (box : Box) (fact : PointerFact)
      (position : Nat), after.pointers[box]? = some fact → fact.lastGuard = some position →
        facts.pointers[box]? = some fact) : after.Remembers required where
  acyclic := acyclic
  remembered box fact position entry last := by
    obtain ⟨guard, found, isGuard⟩ :=
      remembers.remembered box fact position (pointers box fact position entry last) last
    rw [output]
    exact ⟨guard, push_getElem?_of_some found op, isGuard⟩

theorem Remembers.grow (grows : facts.Grows op after) : after.Remembers required :=
  remembers.push (grows.acyclic remembers.acyclic) grows.output fun _ _ _ entry _ =>
    grows.pointers ▸ entry

/-- Learning about a reference, where the guard remembered for it allows that. -/
theorem Remembers.updatePointer (allowed : ∀ box position, facts.resolve value = .box box →
      (update (facts.pointers.getD box {})).lastGuard = some position →
        ∃ guard, facts.output[position]? = some guard ∧
          required guard box (update (facts.pointers.getD box {}))) :
    (facts.updatePointer value update).Remembers required := by
  cases resolved : facts.resolve value with
  | const literal =>
    rw [updatePointer_of_const resolved]
    exact remembers
  | box box =>
    rw [updatePointer_of_box resolved]
    refine ⟨remembers.acyclic, fun other fact position entry last => ?_⟩
    rcases eq_or_getElem?_of_insert entry with ⟨rfl, rfl⟩ | ⟨_, entry⟩
    · exact allowed box position resolved last
    · exact remembers.remembered other fact position entry last

theorem Remembers.remembered_getD (last : (facts.pointers.getD box {}).lastGuard = some position) :
    facts.pointers[box]? = some (facts.pointers.getD box {}) ∧
      ∃ guard, facts.output[position]? = some guard ∧
        required guard box (facts.pointers.getD box {}) := by
  rw [Std.HashMap.getD_eq_getD_getElem?] at last ⊢
  cases entry : facts.pointers[box]? with
  | none =>
    rw [entry] at last
    cases last
  | some fact =>
    rw [entry] at last
    exact ⟨rfl, remembers.remembered box fact position entry last⟩

/-- Overwriting the guard remembered for a reference and learning about the reference: no other
reference remembers that guard. -/
theorem Remembers.overwrite
    (first : ∀ guard box fact, required guard box fact → guard.args[0]? = some (.box box))
    (resolved : facts.resolve value = .box box)
    (last : (facts.pointers.getD box {}).lastGuard = some position)
    (updated : ∀ next, (update (facts.pointers.getD box {})).lastGuard = some next →
      next = position ∧ required stronger box (update (facts.pointers.getD box {}))) :
    (({ facts with output := facts.output.setIfInBounds position stronger } : Facts).updatePointer
      value update).Remembers required := by
  obtain ⟨_, earlier, found, isGuard⟩ := remembers.remembered_getD last
  obtain ⟨inside, _⟩ := Array.getElem?_eq_some_iff.mp found
  have resolved : ({ facts with output := facts.output.setIfInBounds position stronger } :
      Facts).resolve value = .box box := resolved
  rw [updatePointer_of_box resolved]
  refine ⟨remembers.acyclic, fun other fact next entry last => ?_⟩
  rcases eq_or_getElem?_of_insert entry with ⟨rfl, rfl⟩ | ⟨other_ne, entry⟩
  · obtain ⟨rfl, isStronger⟩ := updated next last
    exact ⟨stronger, Array.getElem?_setIfInBounds_self_of_lt inside, isStronger⟩
  obtain ⟨guard, guardFound, isOther⟩ := remembers.remembered other fact next entry last
  have apart : position ≠ next := by
    rintro rfl
    cases found.symm.trans guardFound
    cases (first _ _ _ isGuard).symm.trans (first _ _ _ isOther)
    exact other_ne rfl
  refine ⟨guard, ?_, isOther⟩
  rw [Array.getElem?_setIfInBounds_ne apart]
  exact guardFound

theorem Remembers.resolve_resolve (value : Value) :
    facts.resolve (facts.resolve value) = facts.resolve value :=
  resolve_of_isFinal (isFinal_resolve remembers.acyclic value)

/-- What is known about a reference does not depend on the name it is looked up under. -/
theorem Remembers.resolve_box {value : Value} (resolved : facts.resolve value = .box box) :
    facts.resolve (.box box) = .box box := by
  rw [← resolved, remembers.resolve_resolve]

end

/-- No fact rests on a guard of the output, so a guard may be overwritten. -/
theorem Holds.overwrite (holds : facts.Holds heap valuation)
    (found : facts.output[position]? = some earlier) (wasGuard : earlier.isGuard)
    (stronger : Operation) :
    ({ facts with output := facts.output.setIfInBounds position stronger } : Facts).Holds heap
      valuation := by
  refine ⟨holds.acyclic, holds.replaced, holds.bounded, holds.pointed, holds.computed, ?_⟩
  intro box producer entry
  obtain ⟨op, literal, producing, computed, boxValue⟩ := holds.produced box producer entry
  have apart : position ≠ producer := by
    rintro rfl
    rw [found] at producing
    cases producing
    rw [Operation.computed_of_isGuard wasGuard] at computed
    cases computed
  refine ⟨op, literal, ?_, computed, boxValue⟩
  rw [Array.getElem?_setIfInBounds_ne apart]
  exact producing

/-! ## Appended guards -/

/-- The facts after an operation without a result was emitted, before anything is learned from
it. -/
def afterEmit (facts : Facts) (op : Operation) : Facts :=
  facts.append (facts.resolveOperation op) .unbounded

/-- The facts after the guard at a position was strengthened to one that asks more of its first
operand. -/
def strengthen (facts : Facts) (position : Nat) (earlier : Operation) (opcode : Opcode)
    (argument : Value) (literal : Const) : Facts :=
  { facts with
    output := facts.output.setIfInBounds position
      { earlier.recode opcode [argument, .const literal] with
        descriptor := some (.guard .guard) } }

/-- The facts after a guard on a reference was emitted, with what is learned from it; unless it
resumes at its position, it is remembered. -/
def afterPointerGuard (facts : Facts) (op : Operation) (source : Value)
    (learn : PointerFact → PointerFact) : Facts :=
  (facts.afterEmit op).updatePointer (facts.resolve source) fun fact =>
    if op.resume = .atPosition then learn fact
    else (learn fact).withLastGuard facts.nextPosition

theorem resolve_afterEmit (facts : Facts) (isVoid : op.result = none) (value : Value) :
    (facts.afterEmit op).resolve value = facts.resolve value := by
  unfold afterEmit Facts.append
  rw [show (facts.resolveOperation op).result = none from isVoid]
  rfl

theorem grows_afterEmit (facts : Facts) (isVoid : op.result = none) :
    facts.Grows (facts.resolveOperation op) (facts.afterEmit op) := by
  have stays : (facts.resolveOperation op).result = none := isVoid
  exact grows_append_void facts stays .unbounded

theorem Holds.afterEmit (holds : facts.Holds heap valuation) (isVoid : op.result = none) :
    (facts.afterEmit op).Holds heap valuation := by
  have stays : (facts.resolveOperation op).result = none := isVoid
  exact holds.append_void stays .unbounded

/-- A guard was appended, and then something about boxes was learned from it. -/
theorem handled_of_learns (coherent : facts.Coherent) (isVoid : op.result = none)
    (learns : (facts.afterEmit op).Learns after)
    (holds : ∀ valuation, facts.Holds heap valuation → op.checked heap valuation = some true →
      after.Holds heap valuation) : Handled heap op facts after := by
  have grows := (grows_afterEmit facts isVoid).learn learns
  exact ⟨⟨coherent.grow grows, grows.target, grows.replaced, holds⟩, .appended grows.output⟩

theorem Handled.learn {before middle : Facts} (handled : Handled heap op before middle)
    (learns : middle.Learns after)
    (holds : ∀ valuation, before.Holds heap valuation → op.checked heap valuation = some true →
      after.Holds heap valuation) : Handled heap op before after := by
  refine ⟨⟨handled.coherent.learn learns, learns.target.trans handled.target,
    fun box absent => handled.replaced box (learns.replaced box absent), holds⟩, ?_⟩
  cases handled.outcome with
  | dropped output passes => exact .dropped (learns.output.trans output) passes
  | appended output => exact .appended (learns.output.trans output)
  | merged known found output strengthens decides =>
    exact .merged known found (learns.output.trans output) strengthens decides

/-- The guard passes wherever the facts are true. -/
def Passes (heap : Heap) (facts : Facts) (op : Operation) : Prop :=
  ∀ valuation verdict, facts.Holds heap valuation → op.checked heap valuation = some verdict →
    verdict = true

theorem handled_of_passes (coherent : facts.Coherent) (passes : facts.Passes heap op) :
    Handled heap op facts facts :=
  ⟨⟨coherent, rfl, fun _ absent => absent, fun _ holds _ => holds⟩, .dropped rfl passes⟩

/-! ## References -/

theorem pointer_of_box (resolved : facts.resolve value = .box box) :
    facts.pointer value = facts.pointers.getD box {} := by
  rw [pointer, resolved]

theorem Holds.reference_of_checked (holds : facts.Holds heap valuation)
    (describes : facts.target.Describes heap) {question : UInt64 → Bool}
    (checks : op.opcode.check heap = fun args =>
      onReference args fun address => some (question address))
    (first : op.args[0]? = some source) (checked : op.checked heap valuation = some verdict) :
    ∃ address, valuation.value (facts.resolve source) = some (.ref address) ∧
      (facts.pointer (facts.resolve source)).Holds heap address ∧ verdict = question address := by
  obtain ⟨value, address, _, isFirst, valueIs, _, answer⟩ :=
    Operation.reference_of_checked (fun _ address => some (question address)) checks checked
  cases first.symm.trans isFirst
  rw [← holds.value_resolve] at valueIs
  exact ⟨address, valueIs, holds.pointer describes valueIs,
    (some.inj answer).symm⟩

theorem Holds.class_of_checked (holds : facts.Holds heap valuation)
    (describes : facts.target.Describes heap) {question : UInt64 → UInt64 → Bool} {second : Value}
    (checks : op.opcode.check heap = fun args => onReference args fun address => do
      return question address (← addressArg args)) (first : op.args[0]? = some source)
    (isSecond : op.args[1]? = some second) (checked : op.checked heap valuation = some verdict)
    {expected : UInt64} (expects : facts.address? second = some expected) :
    ∃ address, valuation.value (facts.resolve source) = some (.ref address) ∧
      (facts.pointer (facts.resolve source)).Holds heap address ∧
        verdict = question address expected := by
  obtain ⟨value, address, classValue, literal, vtable, isFirst, valueIs, isClass, classIs, isVtable,
    rfl⟩ := Operation.class_of_checked question checks checked
  cases first.symm.trans isFirst
  cases isSecond.symm.trans isClass
  obtain ⟨known, isKnown, isExpected⟩ := bind_eq_some_iff.mp expects
  cases classIs.symm.trans (holds.value_of_constant? isKnown)
  cases isVtable.symm.trans isExpected
  rw [← holds.value_resolve] at valueIs
  exact ⟨address, valueIs, holds.pointer describes valueIs, rfl⟩

/-- A guard was merged into the one that is remembered for its reference. -/
theorem handled_of_merge (coherent : facts.Coherent) (resolved : facts.resolve value = .box box)
    (last : (facts.pointers.getD box {}).lastGuard = some position)
    (found : facts.output[position]? = some earlier)
    (strengthens : stronger.Strengthens heap earlier)
    (decides : ∀ valuation reached verdict, facts.Holds heap valuation →
      valuation.Extends reached → earlier.checked heap reached = some true →
        op.checked heap valuation = some verdict → stronger.checked heap reached = some verdict)
    (updated : ∀ next, (update (facts.pointers.getD box {})).lastGuard = some next →
      next = position ∧ stronger.Establishes box (update (facts.pointers.getD box {})))
    (learned : ∀ valuation, facts.Holds heap valuation → op.checked heap valuation = some true →
      ∃ address, valuation box = some (.ref address) ∧
        ∀ fact : PointerFact, fact.Holds heap address → (update fact).Holds heap address) :
    Handled heap op facts (({ facts with output := facts.output.setIfInBounds position stronger } :
        Facts).updatePointer value update) := by
  have output : (({ facts with output := facts.output.setIfInBounds position stronger } :
      Facts).updatePointer value update).output = facts.output.setIfInBounds position stronger := by
    rw [updatePointer_eq]
  refine ⟨⟨coherent.overwrite (fun _ _ _ => (·.first)) resolved last updated, ?_, ?_, ?_⟩,
    .merged (coherent.remembered_getD last).1 found output strengthens decides⟩
  · rw [updatePointer_eq]
  · intro other absent
    rw [updatePointer_eq] at absent
    exact absent
  · intro valuation holds passes
    obtain ⟨address, boxValue, keeps⟩ := learned valuation holds passes
    refine (holds.overwrite found strengthens.wasGuard stronger).updatePointer ?_ keeps
    rw [← holds.value_resolve, resolved]
    exact boxValue

end Facts

end LinearTrace
