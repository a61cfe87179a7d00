import LinearTrace.Proofs.Interval
import LinearTrace.Proofs.KnownResults
import LinearTrace.Proofs.Replacement

/-!
# Facts that hold of a run

The facts of a walk hold of a valuation when every table tells the truth about
it.  Each entry says that the boxes it speaks of are defined, so no entry speaks
of a box that is still to come, and facts stay true while a run defines more
boxes.  Learning keeps the facts true and never takes a replacement back.
-/

namespace LinearTrace

open Option LinearTrace.Valuation Std.HashMap

variable {heap : Heap} {valuation : Valuation} {facts : Facts}

variable {box : Box} {before after : Facts} {value : Value} {word : Int64} {literal : Const}
  {vtable : UInt64} {replacements : Replacements}

/-! ## References -/

/-- A fact about a reference tells the truth about an address. -/
structure PointerFact.Holds (heap : Heap) (fact : PointerFact) (address : UInt64) : Prop where
  null : fact.nullness = .null → address = 0
  nonnull : fact.nullness = .nonnull → address ≠ 0
  knownClass : ∀ vtable, fact.knownClass = some vtable → heap.classOf address = some vtable
  typeId : ∀ typeId, fact.typeId = some typeId → heap.typeIdOf address = some typeId
  isObject : fact.isObject = true → (heap.classOf address).isSome = true
  isPrecise : fact.isPrecise = true → fact.isObject = (heap.classOf address).isSome

theorem Heap.ne_null_of_classOf {address vtable : UInt64}
    (isInstance : heap.classOf address = some vtable) : address ≠ 0 := by
  rintro rfl
  rw [heap.classOf_null] at isInstance
  cases isInstance

namespace PointerFact

variable {fact : PointerFact} {address : UInt64}

theorem holds_unknown (heap : Heap) (address : UInt64) : Holds heap {} address where
  null known := by cases known
  nonnull known := by cases known
  knownClass _ known := by cases known
  typeId _ known := by cases known
  isObject known := by cases known
  isPrecise known := by cases known

theorem holds_null (heap : Heap) : Holds heap .null 0 where
  null _ := rfl
  nonnull known := by cases known
  knownClass := (holds_unknown heap 0).knownClass
  typeId := (holds_unknown heap 0).typeId
  isObject := (holds_unknown heap 0).isObject
  isPrecise := (holds_unknown heap 0).isPrecise

theorem Holds.withNonnull (holds : fact.Holds heap address) (nonnull : address ≠ 0) :
    fact.withNonnull.Holds heap address where
  null known := by cases known
  nonnull _ := nonnull
  knownClass := holds.knownClass
  typeId := holds.typeId
  isObject := holds.isObject
  isPrecise := holds.isPrecise

theorem holds_nonnull (nonnull : address ≠ 0) : Holds heap .nonnull address :=
  (holds_unknown heap address).withNonnull nonnull

section

variable (holds : fact.Holds heap address)

include holds

theorem Holds.withClass (isInstance : heap.classOf address = some vtable) :
    (fact.withClass vtable).Holds heap address where
  null known := by cases known
  nonnull _ := heap.ne_null_of_classOf isInstance
  knownClass known same := by
    cases same
    exact isInstance
  typeId := holds.typeId
  isObject _ := by rw [isInstance]; rfl
  isPrecise _ := by rw [isInstance]; rfl

theorem Holds.withLastGuard (position : Nat) : (fact.withLastGuard position).Holds heap address :=
  ⟨holds.null, holds.nonnull, holds.knownClass, holds.typeId, holds.isObject, holds.isPrecise⟩

theorem Holds.withoutLastGuard : fact.withoutLastGuard.Holds heap address :=
  ⟨holds.null, holds.nonnull, holds.knownClass, holds.typeId, holds.isObject, holds.isPrecise⟩

theorem Holds.eq_zero (isNull : fact.isNull) : address = 0 :=
  holds.null (beq_iff_eq.mp isNull)

theorem Holds.ne_zero (isNonnull : fact.isNonnull) : address ≠ 0 :=
  holds.nonnull (beq_iff_eq.mp isNonnull)

end

end PointerFact

/-! ## Facts -/

namespace Facts

open Replacements

/-- Everything a walk has learned is true. -/
structure Holds (heap : Heap) (facts : Facts) (valuation : Valuation) : Prop where
  acyclic : Acyclic facts.replacements
  /-- A replaced box has the value of its replacement. -/
  replaced : ∀ (box : Box) (value : Value), facts.replacements[box]? = some value →
    ∃ literal, valuation box = some literal ∧ valuation.value value = some literal
  bounded : ∀ (box : Box) (interval : Interval), facts.intervals[box]? = some interval →
    ∃ word, valuation box = some (.int word) ∧ word ∈ interval
  pointed : ∀ (box : Box) (fact : PointerFact), facts.pointers[box]? = some fact →
    ∃ address, valuation box = some (.ref address) ∧ fact.Holds heap address
  computed : facts.known.Holds valuation
  /-- The operation recorded as a box's producer computes the box's value. -/
  produced : ∀ (box : Box) (position : Nat), facts.producers[box]? = some position →
    ∃ op literal, facts.output[position]? = some op ∧ op.computed valuation = some literal ∧
      valuation box = some literal

/-- The output's valuation has every box that is not replaced. -/
def Tracks (facts : Facts) (valuation reached : Valuation) : Prop :=
  ∀ (box : Box) (literal : Const), valuation box = some literal →
    facts.replacements[box]? = none → reached box = some literal

/-- A walk that learned about boxes only: nothing was emitted, and no replacement was taken
back. -/
structure Learns (before after : Facts) : Prop where
  target : after.target = before.target
  pointers : after.pointers = before.pointers
  output : after.output = before.output
  replaced : ∀ box : Box, after.replacements[box]? = none → before.replacements[box]? = none
  acyclic : Acyclic before.replacements → Acyclic after.replacements

theorem Learns.refl (facts : Facts) : facts.Learns facts :=
  ⟨rfl, rfl, rfl, fun _ absent => absent, id⟩

theorem Learns.trans {before middle after : Facts} (first : before.Learns middle)
    (second : middle.Learns after) : before.Learns after :=
  ⟨second.target.trans first.target, second.pointers.trans first.pointers,
    second.output.trans first.output,
    fun box absent => first.replaced box (second.replaced box absent),
    fun acyclic => second.acyclic (first.acyclic acyclic)⟩

/-! ### Values -/

section

variable (holds : facts.Holds heap valuation)

include holds

theorem Holds.value_follow (steps : Nat) (value : Value) :
    valuation.value (follow facts.replacements steps value) = valuation.value value := by
  induction steps generalizing value with
  | zero => cases value <;> rfl
  | succ steps ih =>
    cases value with
    | const literal => rfl
    | box box =>
      rw [follow]
      cases entry : facts.replacements[box]? with
      | none => rfl
      | some next =>
        obtain ⟨literal, boxValue, nextValue⟩ := holds.replaced box next entry
        rw [ih, nextValue, value_box, boxValue]

/-- A value stands for a value that is the same in the run. -/
theorem Holds.value_resolve (value : Value) :
    valuation.value (facts.resolve value) = valuation.value value :=
  holds.value_follow _ value

theorem Holds.mem_interval (defined : valuation.value value = some (.int word)) :
    word ∈ facts.interval value := by
  rw [← holds.value_resolve] at defined
  unfold Facts.interval
  cases resolved : facts.resolve value with
  | const literal =>
    rw [resolved] at defined
    cases defined
    exact Interval.mem_constant word
  | box box =>
    rw [resolved] at defined
    dsimp only
    rw [getD_eq_getD_getElem?]
    cases found : facts.intervals[box]? with
    | none => exact Interval.mem_unbounded word
    | some interval =>
      obtain ⟨bounded, boxValue, member⟩ := holds.bounded box interval found
      rw [value_box, boxValue] at defined
      cases defined
      exact member

theorem Holds.value_of_constant? (known : facts.constant? value = some literal) :
    valuation.value value = some literal := by
  rw [← holds.value_resolve]
  unfold Facts.constant? at known
  cases resolved : facts.resolve value with
  | const constant =>
    rw [resolved] at known
    exact known
  | box box =>
    rw [resolved] at known
    dsimp only at known
    split at known
    · obtain ⟨word, single, rfl⟩ := map_eq_some_iff.mp known
      obtain ⟨interval, found, single⟩ := bind_eq_some_iff.mp single
      obtain ⟨bounded, boxValue, member⟩ := holds.bounded box interval found
      rw [value_box, boxValue, Interval.eq_of_constant? single member]
    · cases known

theorem Holds.value_of_word? (known : facts.word? value = some word) :
    valuation.value value = some (.int word) := by
  obtain ⟨literal, known, isInt⟩ := bind_eq_some_iff.mp known
  rw [holds.value_of_constant? known]
  cases literal with
  | int value => exact congrArg (fun word => some (Const.int word)) (some.inj isInt)
  | float value => cases isInt
  | ref address => cases isInt

theorem Holds.pointer (describes : facts.target.Describes heap) {address : UInt64}
    (defined : valuation.value value = some (.ref address)) :
    (facts.pointer value).Holds heap address := by
  rw [← holds.value_resolve] at defined
  unfold Facts.pointer
  cases resolved : facts.resolve value with
  | const literal =>
    rw [resolved] at defined
    cases defined
    dsimp only
    split
    next isNull =>
      subst isNull
      exact PointerFact.holds_null heap
    next nonnull =>
      split
      next vtable listed =>
        exact (PointerFact.holds_nonnull nonnull).withClass (describes.classOf listed)
      · exact PointerFact.holds_nonnull nonnull
  | box box =>
    rw [resolved] at defined
    dsimp only
    rw [getD_eq_getD_getElem?]
    cases found : facts.pointers[box]? with
    | none => exact PointerFact.holds_unknown heap address
    | some fact =>
      obtain ⟨pointed, boxValue, factHolds⟩ := holds.pointed box fact found
      rw [value_box, boxValue] at defined
      cases defined
      exact factHolds

end

/-! ### Learning -/

theorem Holds.extend (holds : facts.Holds heap valuation) {larger : Valuation}
    (above : larger.Extends valuation) : facts.Holds heap larger where
  acyclic := holds.acyclic
  replaced box value entry := by
    obtain ⟨literal, boxValue, valueValue⟩ := holds.replaced box value entry
    exact ⟨literal, above box literal boxValue, above.value valueValue⟩
  bounded box interval entry := by
    obtain ⟨word, boxValue, member⟩ := holds.bounded box interval entry
    exact ⟨word, above box _ boxValue, member⟩
  pointed box fact entry := by
    obtain ⟨address, boxValue, factHolds⟩ := holds.pointed box fact entry
    exact ⟨address, above box _ boxValue, factHolds⟩
  computed := holds.computed.extend above
  produced box position entry := by
    obtain ⟨op, literal, found, computed, boxValue⟩ := holds.produced box position entry
    exact ⟨op, literal, found, Operation.computed_of_extends above computed,
      above box literal boxValue⟩

/-- A new box that is replaced at once needs no value in the output. -/
theorem Tracks.define_of_replaced {reached : Valuation} (tracks : before.Tracks valuation reached)
    (learns : before.Learns after) (replaced : after.replacements[box]? ≠ none) (literal : Const) :
    after.Tracks (valuation.define box literal) reached := by
  intro other value defined absent
  have apart : other ≠ box := by
    rintro rfl
    exact replaced absent
  rw [define_of_ne apart] at defined
  exact tracks other value defined (learns.replaced other absent)

theorem absent_of_insert_absent {other : Box}
    (absent : (replacements.insert box value)[other]? = none) : replacements[other]? = none := by
  rw [getElem?_insert] at absent
  split at absent
  · cases absent
  · exact absent

theorem learns_makeConstant (facts : Facts) (value : Value) (literal : Const) :
    facts.Learns (facts.makeConstant value literal) := by
  unfold makeConstant
  split
  · exact Learns.refl facts
  next box _ =>
    exact ⟨rfl, rfl, rfl, fun _ => absent_of_insert_absent,
      fun acyclic => acyclic.insert_const box literal⟩

theorem acyclic_insert_resolve (acyclic : Acyclic facts.replacements)
    (apart : facts.resolve value ≠ .box box) :
    Acyclic (facts.replacements.insert box (facts.resolve value)) := by
  have final := isFinal_resolve acyclic value
  cases resolved : facts.resolve value with
  | const known => exact acyclic.insert_const box known
  | box target =>
    rw [resolved] at final apart
    exact acyclic.insert_box final fun same => apart (congrArg Value.box same)

theorem learns_makeEqual (facts : Facts) (box : Box) (value : Value) :
    facts.Learns (facts.makeEqual box value) := by
  unfold makeEqual
  dsimp only
  split
  · exact Learns.refl facts
  next apart =>
    exact ⟨rfl, rfl, rfl, fun _ => absent_of_insert_absent,
      fun acyclic => acyclic_insert_resolve acyclic apart⟩

theorem replaced_insert (replaced : ∀ (box : Box) (value : Value), replacements[box]? = some value →
      ∃ literal, valuation box = some literal ∧ valuation.value value = some literal)
    (boxValue : valuation box = some literal) (valueValue : valuation.value value = some literal)
    (other : Box) (next : Value) (entry : (replacements.insert box value)[other]? = some next) :
    ∃ literal, valuation other = some literal ∧ valuation.value next = some literal := by
  rcases eq_or_getElem?_of_insert entry with ⟨rfl, rfl⟩ | ⟨_, entry⟩
  · exact ⟨literal, boxValue, valueValue⟩
  · exact replaced other next entry

theorem bounded_insert {intervals : Std.HashMap Box Interval}
    (bounded : ∀ (box : Box) (interval : Interval), intervals[box]? = some interval →
      ∃ word, valuation box = some (.int word) ∧ word ∈ interval) {interval : Interval}
    (boxValue : valuation box = some (.int word)) (member : word ∈ interval) (other : Box)
    (next : Interval) (entry : (intervals.insert box interval)[other]? = some next) :
    ∃ word, valuation other = some (.int word) ∧ word ∈ next := by
  rcases eq_or_getElem?_of_insert entry with ⟨rfl, rfl⟩ | ⟨_, entry⟩
  · exact ⟨word, boxValue, member⟩
  · exact bounded other next entry

section

variable (holds : facts.Holds heap valuation)

include holds

theorem Holds.makeConstant (defined : valuation.value value = some literal) :
    (facts.makeConstant value literal).Holds heap valuation := by
  rw [← holds.value_resolve] at defined
  unfold Facts.makeConstant
  cases resolved : facts.resolve value with
  | const known => exact holds
  | box box =>
    rw [resolved] at defined
    refine ⟨holds.acyclic.insert_const box literal, replaced_insert holds.replaced defined rfl,
      ?_, holds.pointed, holds.computed, holds.produced⟩
    cases literal with
    | int word => exact bounded_insert holds.bounded defined (Interval.mem_constant word)
    | float value => exact holds.bounded
    | ref address => exact holds.bounded

theorem Holds.makeEqual (boxValue : valuation box = some literal)
    (valueValue : valuation.value value = some literal) :
    (facts.makeEqual box value).Holds heap valuation := by
  rw [← holds.value_resolve] at valueValue
  unfold Facts.makeEqual
  dsimp only
  split
  · exact holds
  rename_i apart
  exact ⟨acyclic_insert_resolve holds.acyclic apart,
    replaced_insert holds.replaced boxValue valueValue, holds.bounded, holds.pointed,
    holds.computed, holds.produced⟩

theorem Holds.not_replaced (fresh : valuation box = none) : facts.replacements[box]? = none := by
  cases entry : facts.replacements[box]? with
  | none => rfl
  | some value =>
    obtain ⟨literal, boxValue, _⟩ := holds.replaced box value entry
    rw [fresh] at boxValue
    cases boxValue

theorem Holds.replaced_makeConstant (fresh : valuation box = none) (literal : Const) :
    (facts.makeConstant (.box box) literal).replacements[box]? ≠ none := by
  have itself : facts.resolve (.box box) = .box box := resolve_of_isFinal (holds.not_replaced fresh)
  rw [Facts.makeConstant, itself]
  rw [getElem?_insert_self]
  exact some_ne_none _

theorem Holds.replaced_makeEqual (fresh : valuation box = none)
    (defined : valuation.value value = some literal) :
    (facts.makeEqual box value).replacements[box]? ≠ none := by
  have apart : facts.resolve value ≠ .box box := by
    intro same
    rw [← holds.value_resolve, same, value_box, fresh] at defined
    cases defined
  rw [Facts.makeEqual, if_neg apart, getElem?_insert_self]
  exact some_ne_none _

end

/-! ### Learning about references -/

theorem updatePointer_of_box (resolved : facts.resolve value = .box box)
    (update : PointerFact → PointerFact) :
    facts.updatePointer value update =
      { facts with
        pointers := facts.pointers.insert box (update (facts.pointers.getD box {})) } := by
  rw [updatePointer, resolved]

theorem updatePointer_of_const (resolved : facts.resolve value = .const literal)
    (update : PointerFact → PointerFact) : facts.updatePointer value update = facts := by
  rw [updatePointer, resolved]

theorem updatePointer_eq (facts : Facts) (value : Value) (update : PointerFact → PointerFact) :
    facts.updatePointer value update =
      { facts with pointers := (facts.updatePointer value update).pointers } := by
  unfold updatePointer
  split <;> rfl

theorem Holds.updatePointer (holds : facts.Holds heap valuation) {address : UInt64}
    (defined : valuation.value value = some (.ref address)) {update : PointerFact → PointerFact}
    (updated : ∀ fact : PointerFact, fact.Holds heap address → (update fact).Holds heap address) :
    (facts.updatePointer value update).Holds heap valuation := by
  rw [← holds.value_resolve] at defined
  cases resolved : facts.resolve value with
  | const literal =>
    rw [updatePointer_of_const resolved]
    exact holds
  | box box =>
    rw [resolved, value_box] at defined
    have current : (facts.pointers.getD box {}).Holds heap address := by
      rw [getD_eq_getD_getElem?]
      cases found : facts.pointers[box]? with
      | none => exact PointerFact.holds_unknown heap address
      | some fact =>
        obtain ⟨pointed, boxValue, factHolds⟩ := holds.pointed box fact found
        rw [boxValue] at defined
        cases defined
        exact factHolds
    rw [updatePointer_of_box resolved]
    refine ⟨holds.acyclic, holds.replaced, holds.bounded, ?_, holds.computed, holds.produced⟩
    intro other fact entry
    rcases eq_or_getElem?_of_insert entry with ⟨rfl, rfl⟩ | ⟨_, entry⟩
    · exact ⟨address, defined, updated _ current⟩
    · exact holds.pointed other fact entry

/-! ### Narrowing -/

/-- The condition is kept by learning the interval of a box, and that a box is a word. -/
structure KeptByNarrowing (invariant : Facts → Prop) : Prop where
  intervals : ∀ facts intervals, invariant facts → invariant { facts with intervals := intervals }
  makeWord : ∀ facts box word, invariant facts → invariant (facts.makeWord box word)

theorem KeptByNarrowing.narrow {invariant : Facts → Prop} (keeps : KeptByNarrowing invariant)
    (value : Value) (narrowing : Interval.Narrowing) (kept : invariant facts) :
    Leaves (narrow value narrowing) facts invariant := by
  refine .bind_get ?_
  split
  · exact kept
  rename_i box _
  split
  · split
    · exact keeps.intervals facts _ kept
    rename_i interval _
    have learned := keeps.intervals facts (facts.intervals.insert box interval) kept
    split
    · exact keeps.makeWord _ _ _ learned
    · exact learned
  · exact kept

theorem keptByNarrowing_learns (facts : Facts) : KeptByNarrowing facts.Learns where
  intervals _ _ learns := ⟨learns.target, learns.pointers, learns.output, learns.replaced,
    learns.acyclic⟩
  makeWord after _ _ learns := learns.trans (learns_makeConstant after _ _)

/-- Narrowing by what a word satisfies does not fail, and the facts stay true. -/
theorem Holds.narrow (holds : facts.Holds heap valuation)
    (defined : valuation.value value = some (.int word)) {narrowing : Interval.Narrowing}
    (keeps : narrowing.Keeps word) :
    Ensures False (Facts.narrow value narrowing) facts fun _ after =>
      after.Holds heap valuation := by
  have member := holds.mem_interval defined
  rw [← holds.value_resolve] at defined
  unfold Facts.interval at member
  refine .bind_get ?_
  split
  · exact holds
  rename_i box resolved
  rw [resolved] at defined member
  split
  · obtain ⟨changed, narrowed, narrowedEq, stays⟩ := keeps _ member
    rw [narrowedEq]
    have learned : ({ facts with intervals := facts.intervals.insert box narrowed } : Facts).Holds
        heap valuation :=
      ⟨holds.acyclic, holds.replaced, bounded_insert holds.bounded defined stays, holds.pointed,
        holds.computed, holds.produced⟩
    dsimp only
    split
    next single =>
      refine learned.makeConstant ?_
      rw [value_box, ← Interval.eq_of_constant? single stays]
      exact defined
    · exact learned
  · exact holds

end Facts

end LinearTrace
