import LinearTrace.Peephole.Guard
import LinearTrace.Proofs.Facts.Condition
import LinearTrace.Proofs.Peephole.Outcome

/-!
# The rules for guards

Every rule drops, appends or merges its guard soundly, and stops with a
contradiction only where the guard passes in no run.
-/

namespace LinearTrace

open Option Operation PointerFact

variable {heap : Heap} {valuation : Valuation} {op : Operation} {box : Box} {excuse : Prop}

variable {position known : Nat} {verdict : Bool} {value : Value} {literal : Const}
  {expected : UInt64} {guard stronger : Operation} {fact : PointerFact}

namespace Peephole

open Facts

variable {walk : Peephole}

variable {facts : Facts} {source second argument : Value} {earlier : Operation}

/-! ## Guards for a constant -/

/-- The check compares the first operand with a constant. -/
def Compares (heap : Heap) (facts : Facts) (op : Operation) (expected : Const) : Prop :=
  ∀ value valuation verdict, op.args[0]? = some value → facts.Holds heap valuation →
    op.checked heap valuation = some verdict →
      ∃ literal, valuation.value value = some literal ∧ verdict = (literal == expected)

theorem Compares.value_eq {expected : Const} (compares : Compares heap facts op expected)
    (first : op.args[0]? = some value) (holds : facts.Holds heap valuation)
    (passes : op.checked heap valuation = some true) : valuation.value value = some expected := by
  obtain ⟨literal, valueIs, same⟩ := compares value valuation true first holds passes
  rw [valueIs, beq_iff_eq.mp same.symm]

theorem passes_of_constant? {expected : Const}
    (compares : Compares heap facts op expected) (first : op.args[0]? = some source)
    (known : facts.constant? (facts.resolve source) = some expected) : facts.Passes heap op := by
  intro valuation verdict holds checked
  obtain ⟨literal, literalIs, rfl⟩ := compares source valuation verdict first holds checked
  rw [← holds.value_resolve, holds.value_of_constant? known] at literalIs
  rw [← some.inj literalIs]
  exact beq_self_eq_true expected

theorem compares_guardTruth (truth : Bool)
    (opcode : op.opcode = if truth then .guardTrue else .guardFalse) :
    Compares heap facts op (.truth truth) := by
  have checks : op.opcode.check heap = fun args =>
      args[0]?.map fun literal => literal == .truth truth := by
    cases truth <;> rw [opcode] <;> rfl
  intro value valuation verdict first _ checked
  obtain ⟨source, literal, isFirst, valueIs, rfl⟩ := value_of_checked checks checked
  cases first.symm.trans isFirst
  exact ⟨literal, valueIs, rfl⟩

theorem compares_guardValue (opcode : op.opcode = .guardValue)
    {expected : Const} (isSecond : op.args[1]? = some second)
    (known : facts.constant? second = some expected) : Compares heap facts op expected := by
  intro value valuation verdict first holds checked
  obtain ⟨literals, defined, decided⟩ := bind_eq_some_iff.mp checked
  rw [opcode] at decided
  obtain ⟨literal, found, decided⟩ := bind_eq_some_iff.mp decided
  obtain ⟨other, otherFound, decided⟩ := bind_eq_some_iff.mp decided
  rw [Valuation.values_getElem? defined, first] at found
  rw [Valuation.values_getElem? defined, isSecond, bind_some,
    holds.value_of_constant? known] at otherFound
  cases otherFound
  exact ⟨literal, found, (some.inj decided).symm⟩

theorem ensuresValue_classAgrees {expected : Const}
    (excused : ∀ address vtable known, expected.address? = some address →
      facts.target.classOf? address = some vtable → fact.knownClass = some known →
        vtable ≠ known → excuse) :
    EnsuresValue excuse (classAgrees facts fact expected) fun agrees => agrees = true →
      ∀ known, fact.knownClass = some known → ∃ address, expected.address? = some address ∧
          facts.target.classOf? address = some known := by
  unfold classAgrees
  split
  next unknown =>
    intro _ known isKnown
    rw [unknown] at isKnown
    cases isKnown
  rename_i known isKnown
  split
  · exact fun agrees => by cases agrees
  rename_i vtable listed
  obtain ⟨address, isAddress, listed⟩ := bind_eq_some_iff.mp listed
  split
  next same =>
    subst same
    intro _ other isOther
    cases isKnown.symm.trans isOther
    exact ⟨address, isAddress, listed⟩
  next apart => exact excused address vtable known isAddress listed isKnown apart

theorem strengthens_guardValue {expected : Const} {target : Target}
    (describes : target.Describes heap) (establishes : guard.Establishes box fact)
    (nonnull : expected.isNonnull)
    (agrees : ∀ known, fact.knownClass = some known →
      ∃ address, expected.address? = some address ∧ target.classOf? address = some known)
    (opcode : stronger.opcode = .guardValue) (args : stronger.args = [.box box, .const expected])
    (snapshot : stronger.snapshot = guard.snapshot) : stronger.Strengthens heap guard where
  isGuard := by rw [isGuard, opcode]; rfl
  wasGuard := establishes.isGuard
  frames := by rw [frames, snapshot]; rfl
  checked := by
    intro valuation passes checked
    obtain ⟨address, boxValue, passesIf⟩ := establishes.passes checked
    refine ⟨Const.ref address == expected, ?_, fun same => ?_⟩
    · rw [checked_pair args boxValue, opcode]
      rfl
    -- The guarded reference is the constant, and so has the class that the target lists.
    obtain rfl := beq_iff_eq.mp same
    refine passesIf (bne_iff_ne.mp nonnull) fun known isKnown => ?_
    obtain ⟨listed, isAddress, classIs⟩ := agrees known isKnown
    cases isAddress
    exact describes.classOf classIs

/-- Where a guard for a constant passes, its box has the constant, and what is known is true of it. -/
theorem Compares.reference {expected : Const} (compares : Compares heap facts op expected)
    (first : op.args[0]? = some source) (resolved : facts.resolve source = .box box)
    (known : facts.pointers[box]? = some fact) (holds : facts.Holds heap valuation)
    (passes : op.checked heap valuation = some true) :
    ∃ address, expected = .ref address ∧ valuation box = some (.ref address) ∧
      fact.Holds heap address := by
  have valueIs := compares.value_eq first holds passes
  obtain ⟨address, boxValue, isTrue⟩ := holds.pointed box _ known
  rw [← holds.value_resolve, resolved, Valuation.value_box, boxValue] at valueIs
  exact ⟨address, (some.inj valueIs).symm, boxValue, isTrue⟩

/-- A guard for a constant was merged into the guard that is remembered for its reference. -/
theorem handled_of_valueMerge (coherent : facts.Coherent)
    (describes : facts.target.Describes heap) {expected : Const}
    (first : op.args[0]? = some source)
    (compares : Compares heap facts op expected) (resolved : facts.resolve source = .box box)
    (last : (facts.pointers.getD box {}).lastGuard = some position)
    (found : facts.output[position]? = some earlier) (isArgument : earlier.args[0]? = some argument)
    (nonnull : expected.isNonnull)
    (agrees : ∀ known, (facts.pointers.getD box {}).knownClass = some known →
      ∃ address, expected.address? = some address ∧ facts.target.classOf? address = some known) :
    Handled heap op facts (((facts.strengthen position earlier .guardValue argument
      expected).updatePointer (.box box) withoutLastGuard).makeConstant (.box box)
        expected) := by
  obtain ⟨known, guard, isGuard, establishes⟩ := coherent.remembered_getD last
  cases found.symm.trans isGuard
  cases establishes.first.symm.trans isArgument
  have merged : Handled heap op facts ((facts.strengthen position earlier .guardValue (.box box)
      expected).updatePointer (.box box) withoutLastGuard) := by
    refine handled_of_merge coherent (coherent.resolve_box resolved) last found
      (strengthens_guardValue describes establishes nonnull agrees rfl rfl rfl) ?_ ?_ ?_
    · intro valuation reached verdict holds above passed checked
      obtain ⟨address, boxValue, _⟩ := establishes.passes passed
      obtain ⟨literal, valueIs, rfl⟩ := compares source valuation verdict first holds checked
      rw [← holds.value_resolve, resolved, Valuation.value_box, above box _ boxValue] at valueIs
      cases valueIs
      rw [checked_pair rfl boxValue]
      rfl
    · intro next remembered
      cases remembered
    · intro valuation holds passes
      obtain ⟨address, _, boxValue, _⟩ := compares.reference first resolved known holds passes
      exact ⟨address, boxValue, fun fact holds => holds.withoutLastGuard⟩
  refine merged.learn (learns_makeConstant _ _ expected) fun valuation holds passes => ?_
  refine (merged.holds valuation holds passes).makeConstant ?_
  rw [← compares.value_eq first holds passes, ← holds.value_resolve source, resolved]

/-! ## Guards for null -/

/-- A guard that is emitted and remembered as one that may be strengthened. -/
theorem handled_of_pointerGuard (coherent : facts.Coherent)
    (isVoid : op.result = none) {learn : PointerFact → PointerFact}
    (lastGuard : ∀ fact, (learn fact).lastGuard = fact.lastGuard)
    (new : ∀ box, facts.resolve source = .box box →
      (facts.resolveOperation op).Establishes box (learn (facts.pointers.getD box {})))
    (old : ∀ box (guard : Operation), facts.resolve source = .box box →
      guard.Establishes box (facts.pointers.getD box {}) →
        guard.Establishes box (learn (facts.pointers.getD box {})))
    (learned : ∀ valuation, facts.Holds heap valuation → op.checked heap valuation = some true →
      ∃ address, valuation.value (facts.resolve source) = some (.ref address) ∧
        ∀ fact : PointerFact, fact.Holds heap address → (learn fact).Holds heap address) :
    Handled heap op facts (facts.afterPointerGuard op source learn) := by
  have grows := grows_afterEmit facts isVoid
  unfold afterPointerGuard
  refine ⟨⟨(coherent.grow grows).updatePointer ?_, ?_, ?_, ?_⟩, .appended ?_⟩
  · intro box position resolved last
    rw [resolve_afterEmit facts isVoid, coherent.resolve_resolve] at resolved
    rw [grows.pointers] at last ⊢
    rw [grows.output]
    split
    next atPosition =>
      rw [if_pos atPosition, lastGuard] at last
      obtain ⟨_, guard, found, establishes⟩ := coherent.remembered_getD last
      exact ⟨guard, push_getElem?_of_some found _, old box guard resolved establishes⟩
    next elsewhere =>
      rw [if_neg elsewhere] at last
      cases last
      have establishes := new box resolved
      exact ⟨_, Array.getElem?_push_size, establishes.first, establishes.nonnull, establishes.kind⟩
  · rw [updatePointer_eq]
    exact grows.target
  · intro box absent
    rw [updatePointer_eq] at absent
    exact grows.replaced box absent
  · intro valuation holds passes
    obtain ⟨address, valueIs, keeps⟩ := learned valuation holds passes
    refine (holds.afterEmit isVoid).updatePointer valueIs fun fact factHolds => ?_
    split
    · exact keeps fact factHolds
    · exact (keeps fact factHolds).withLastGuard _
  · rw [updatePointer_eq]
    exact grows.output

theorem resolveOperation_getElem? (found : op.args[position]? = some value) :
    (facts.resolveOperation op).args[position]? = some (facts.resolve value) := by
  change (op.args.map facts.resolve)[position]? = _
  rw [List.getElem?_map, found]
  rfl

theorem typeIdOf_of_typeId? (describes : facts.target.Describes heap) {address : UInt64}
    (valueIs : valuation.value (facts.resolve source) = some (.ref address))
    (fact : (facts.pointer (facts.resolve source)).Holds heap address)
    (isKnown : typeId? facts (facts.resolve source) = some known) :
    heap.typeIdOf address = some known := by
  cases resolved : facts.resolve source with
  | const literal =>
    rw [resolved] at valueIs isKnown
    cases valueIs
    exact describes.typeIdOf isKnown
  | box box =>
    rw [resolved] at fact isKnown
    exact fact.typeId known isKnown

/-! ## Guards that are known to pass -/

section Passes

variable {facts : Facts} {source second : Value} (describes : facts.target.Describes heap)
  (first : op.args[0]? = some source)

include describes first

theorem passes_guardIsNull (opcode : op.opcode = .guardIsNull)
    (isNull : (facts.pointer (facts.resolve source)).isNull) : facts.Passes heap op := by
  have checks : op.opcode.check heap = fun args =>
      Opcode.onReference args fun address => some (address == 0) := by rw [opcode]; rfl
  intro valuation verdict holds checked
  obtain ⟨address, _, fact, rfl⟩ := holds.reference_of_checked describes checks first checked
  exact beq_iff_eq.mpr (fact.eq_zero isNull)

theorem passes_guardNonnull (opcode : op.opcode = .guardNonnull)
    (isNonnull : (facts.pointer (facts.resolve source)).isNonnull) : facts.Passes heap op := by
  have checks : op.opcode.check heap = fun args =>
      Opcode.onReference args fun address => some (address != 0) := by rw [opcode]; rfl
  intro valuation verdict holds checked
  obtain ⟨address, _, fact, rfl⟩ := holds.reference_of_checked describes checks first checked
  exact bne_iff_ne.mpr (fact.ne_zero isNonnull)

/-- An instance is known as one, or is a constant that the target lists. -/
theorem passes_guardIsObject (opcode : op.opcode = .guardIsObject)
    (isObject : (facts.pointer (facts.resolve source)).isObject ∨
      ∃ literal, facts.resolve source = .const literal ∧
        facts.target.isObject (literal.address?.getD 0)) : facts.Passes heap op := by
  have checks : op.opcode.check heap = fun args =>
      Opcode.onReference args fun address => some (heap.classOf address).isSome := by
    rw [opcode]; rfl
  intro valuation verdict holds checked
  obtain ⟨address, valueIs, fact, rfl⟩ := holds.reference_of_checked describes checks first checked
  rcases isObject with isObject | ⟨literal, resolved, isObject⟩
  · exact fact.isObject isObject
  rw [resolved] at valueIs
  cases valueIs
  obtain ⟨vtable, listed⟩ := isSome_iff_exists.mp isObject
  exact isSome_iff_exists.mpr ⟨vtable, describes.classOf listed⟩

/-- A guard for a type number passes if the number that is known is the expected one. -/
theorem verdict_guardGcType (opcode : op.opcode = .guardGcType)
    (isSecond : op.args[1]? = some second) {expected : Int64}
    (isExpected : facts.word? second = some expected)
    (isKnown : typeId? facts (facts.resolve source) = some known)
    (holds : facts.Holds heap valuation) (checked : op.checked heap valuation = some verdict) :
    verdict = ((known : Int) == expected.toInt) := by
  obtain ⟨value, address, literals, isFirst, valueIs, defined, answer⟩ :=
    reference_of_checked (fun args address => do
      let expected ← Opcode.wordAt args 1
      return (heap.typeIdOf address).map Int.ofNat == some expected.toInt)
      (by rw [opcode]; rfl) checked
  cases first.symm.trans isFirst
  rw [← holds.value_resolve] at valueIs
  have typeId := typeIdOf_of_typeId? describes valueIs (holds.pointer describes valueIs) isKnown
  obtain ⟨word, isWord, answer⟩ := bind_eq_some_iff.mp answer
  have isInt := Opcode.wordAt_eq_some.mp isWord
  rw [Valuation.values_getElem? defined, isSecond, bind_some,
    holds.value_of_word? isExpected] at isInt
  cases isInt
  rw [typeId] at answer
  exact (some.inj answer).symm

/-- A guard for a subclass decides as the target does about the class that is known, or that it
lists for a constant. -/
theorem verdict_guardSubclass (opcode : op.opcode = .guardSubclass)
    (isSecond : op.args[1]? = some second) (isExpected : facts.address? second = some expected)
    {vtable : UInt64} {compared : Bool}
    (isClass : (facts.pointer (facts.resolve source)).knownClass = some vtable ∨
      ∃ literal address, facts.resolve source = .const literal ∧ literal.address? = some address ∧
        facts.target.classOf? address = some vtable)
    (isCompared : facts.target.isSubclass? vtable expected = some compared)
    (holds : facts.Holds heap valuation) (checked : op.checked heap valuation = some verdict) :
    verdict = compared := by
  have checks : op.opcode.check heap = fun args => Opcode.onReference args fun address => do
      return (heap.classOf address).any (heap.isSubclass · (← Opcode.addressArg args)) := by
    rw [opcode]
    rfl
  obtain ⟨address, valueIs, fact, rfl⟩ :=
    holds.class_of_checked describes checks first isSecond checked isExpected
  have classIs : heap.classOf address = some vtable := by
    rcases isClass with isKnown | ⟨literal, listed, resolved, isAddress, isListed⟩
    · exact fact.knownClass vtable isKnown
    rw [resolved] at valueIs
    cases valueIs
    cases isAddress
    exact describes.classOf isListed
  rw [classIs]
  exact describes.isSubclass isCompared

end Passes

/-! ## Guards for a class -/

theorem address?_of_resolve
    (isConst : (facts.resolve value).const?.bind Const.address? = some expected) :
    facts.address? value = some expected := by
  obtain ⟨literal, isLiteral, isAddress⟩ := bind_eq_some_iff.mp isConst
  unfold address? constant?
  rw [Value.eq_const_of_const? isLiteral]
  exact isAddress

theorem ensuresValue_earlierNonnullGuard? (facts : Facts) (fact : PointerFact) :
    EnsuresValue excuse (guardClass.earlierNonnullGuard? facts fact) fun found =>
      ∀ position earlier, found = some (position, earlier) ↔ fact.lastGuard = some position ∧
        facts.output[position]? = some earlier ∧ earlier.opcode = .guardNonnull ∧
          earlier.resume ≠ .atPosition := by
  unfold guardClass.earlierNonnullGuard?
  split
  next none => simp [EnsuresValue, pure, Except.pure, none]
  rename_i position last
  unfold operationAt
  split
  next earlier found =>
    change EnsuresValue excuse (if earlier.opcode = .guardNonnull ∧ earlier.resume ≠ .atPosition
      then .ok (some (position, earlier)) else .ok none) _
    split <;> simp only [EnsuresValue] <;> grind
  · exact trivial

theorem strengthens_guardNonnullClass (establishes : guard.Establishes box fact)
    (wasNonnull : guard.opcode = .guardNonnull) (isAddress : literal.address? = some expected)
    (opcode : stronger.opcode = .guardNonnullClass)
    (args : stronger.args = [.box box, .const literal])
    (snapshot : stronger.snapshot = guard.snapshot) : stronger.Strengthens heap guard where
  isGuard := by rw [isGuard, opcode]; rfl
  wasGuard := establishes.isGuard
  frames := by rw [frames, snapshot]; rfl
  checked := by
    intro valuation passes checked
    obtain ⟨value, address, _, first, valueIs, _, answer⟩ :=
      reference_of_checked (fun _ address => some (address != 0)) (by rw [wasNonnull]; rfl) checked
    cases establishes.first.symm.trans first
    refine ⟨heap.classOf address == some expected, ?_, fun isInstance => ?_⟩
    · rw [checked_pair args valueIs, opcode]
      change (literal.address?.bind fun vtable => some (heap.classOf address == some vtable)) = _
      rw [isAddress]
      rfl
    · rw [← some.inj answer]
      exact bne_iff_ne.mpr (heap.ne_null_of_classOf (beq_iff_eq.mp isInstance))

theorem check_class (opcode : op.opcode = .guardClass ∨ op.opcode = .guardNonnullClass ∨
    op.opcode = .recordExactClass) :
    op.opcode.check heap = fun args => Opcode.onReference args fun address => do
      return heap.classOf address == some (← Opcode.addressArg args) := by
  rcases opcode with opcode | opcode | opcode <;> rw [opcode] <;> rfl

/-- The operation asks for the exact class of a reference: its verdict is whether the reference
has the expected class, and what is known about the reference is true of it. -/
def AsksClass (heap : Heap) (facts : Facts) (op : Operation) (value : Value)
    (expected : UInt64) : Prop :=
  ∀ valuation verdict, facts.Holds heap valuation → op.checked heap valuation = some verdict →
    ∃ address, valuation.value value = some (.ref address) ∧
      (facts.pointer value).Holds heap address ∧
        verdict = (heap.classOf address == some expected)

theorem asksClass_of_opcode (describes : facts.target.Describes heap)
    (opcode : op.opcode = .guardClass ∨ op.opcode = .guardNonnullClass ∨
      op.opcode = .recordExactClass) (first : op.args[0]? = some source)
    (isSecond : op.args[1]? = some second) (expects : facts.address? second = some expected) :
    AsksClass heap facts op (facts.resolve source) expected :=
  fun _ _ holds checked =>
    holds.class_of_checked describes (check_class opcode) first isSecond checked expects

section

variable (asks : AsksClass heap facts op value expected)

include asks

theorem AsksClass.refutes {known : UInt64}
    (isKnown : (facts.pointer value).knownClass = some known) (apart : known ≠ expected) :
    facts.Refutes heap op := by
  rintro valuation ⟨holds, passes⟩
  obtain ⟨address, _, fact, isInstance⟩ := asks valuation true holds passes
  rw [fact.knownClass known isKnown] at isInstance
  exact apart (some.inj (beq_iff_eq.mp isInstance.symm))

theorem AsksClass.passes
    (isKnown : (facts.pointer value).knownClass = some expected) : facts.Passes heap op := by
  intro valuation verdict holds checked
  obtain ⟨address, _, fact, rfl⟩ := asks valuation verdict holds checked
  rw [fact.knownClass expected isKnown]
  exact beq_self_eq_true _

theorem AsksClass.withClass {valuation : Valuation}
    (holds : facts.Holds heap valuation) (passes : op.checked heap valuation = some true) :
    ∃ address, valuation.value value = some (.ref address) ∧
      ∀ fact : PointerFact, fact.Holds heap address →
        (fact.withClass expected).Holds heap address := by
  obtain ⟨address, valueIs, _, isInstance⟩ := asks valuation true holds passes
  exact ⟨address, valueIs, fun fact factHolds =>
    factHolds.withClass (beq_iff_eq.mp isInstance.symm)⟩

end

/-- A class guard was merged into the guard against null that is remembered for its reference. -/
theorem handled_of_classMerge (coherent : facts.Coherent)
    (itself : facts.resolve (.box box) = .box box)
    (last : (facts.pointers.getD box {}).lastGuard = some position)
    (found : facts.output[position]? = some earlier) (isArgument : earlier.args[0]? = some argument)
    (wasNonnull : earlier.opcode = .guardNonnull) (isAddress : literal.address? = some expected)
    (asks : AsksClass heap facts op (.box box) expected) :
    Handled heap op facts ((facts.strengthen position earlier .guardNonnullClass argument
      literal).updatePointer (.box box) (withClass · expected)) := by
  obtain ⟨_, guard, isGuard, establishes⟩ := coherent.remembered_getD last
  cases found.symm.trans isGuard
  cases establishes.first.symm.trans isArgument
  have strengthens : Operation.Strengthens heap
      { earlier.recode .guardNonnullClass [.box box, .const literal] with
        descriptor := some (.guard .guard) } earlier :=
    strengthens_guardNonnullClass establishes wasNonnull isAddress rfl rfl rfl
  refine handled_of_merge coherent itself last found strengthens ?_ ?_ ?_
  · intro valuation reached verdict holds above passed checked
    obtain ⟨reference, boxValue, _⟩ := establishes.passes passed
    obtain ⟨address, valueIs, _, rfl⟩ := asks valuation verdict holds checked
    rw [Valuation.value_box, above box _ boxValue] at valueIs
    cases valueIs
    rw [checked_pair rfl boxValue]
    change (literal.address?.bind fun vtable => some (heap.classOf reference == some vtable)) = _
    rw [isAddress]
    rfl
  · intro next remembered
    cases last.symm.trans remembered
    exact ⟨rfl, rfl, rfl, .inr ⟨.inr rfl, literal, expected, rfl, isAddress, rfl⟩⟩
  · exact fun _ holds passes => asks.withClass holds passes

/-! ## Claims -/

theorem learned_recordExactClass (coherent : walk.facts.Coherent)
    (describes : walk.facts.target.Describes heap) (opcode : op.opcode = .recordExactClass) :
    Ensures (walk.facts.Refutes heap op) (recordExactClass op) walk fun _ after =>
      Learned heap op walk.facts after.facts ∧ after.facts.output = walk.facts.output := by
  have unchanged : Learned heap op walk.facts walk.facts :=
    ⟨coherent, rfl, fun _ absent => absent, fun _ holds _ => holds⟩
  refine .bind_currentFacts_arg fun source first => ?_
  refine .bind_arg fun second isSecond => ?_
  split
  · exact ⟨unchanged, rfl⟩
  rename_i expected isExpected
  have asks := asksClass_of_opcode describes (.inr (.inr opcode)) first isSecond isExpected
  split
  next known isKnown =>
    split
    next apart => exact .contradict (asks.refutes isKnown apart)
    · exact ⟨unchanged, rfl⟩
  rename_i unknown
  change Learned heap op walk.facts (walk.facts.updatePointer (walk.facts.resolve source)
    (withClass · expected)) ∧ (walk.facts.updatePointer
      (walk.facts.resolve source) (withClass · expected)).output = walk.facts.output
  refine ⟨⟨coherent.updatePointer ?_, ?_, ?_, ?_⟩, ?_⟩
  · intro box position resolved last
    rw [pointer_of_box resolved] at unknown
    obtain ⟨_, guard, found, establishes⟩ := coherent.remembered_getD last
    exact ⟨guard, found, establishes.withClass unknown expected⟩
  · rw [updatePointer_eq]
  · intro box absent
    rw [updatePointer_eq] at absent
    exact absent
  · intro valuation holds passes
    obtain ⟨address, valueIs, withClass⟩ := asks.withClass holds passes
    exact holds.updatePointer valueIs withClass
  · rw [updatePointer_eq]

end Peephole

end LinearTrace
