import LinearTrace.Proofs.Peephole.Integer

/-!
# Traces of references

Simplifying a trace of reference guards keeps its meaning.  All guards of the
trace pass just when all guards of the output do, and then the jump has the same
values; otherwise the output leaves with the snapshot of a guard that is not later
than the failing one.  A later guard may be merged into an earlier one, so that
the output may leave before the trace does.
-/

namespace LinearTrace

open List Option Peephole LinearTrace.Const Std.HashMap

variable {position : Nat} {literal : Const} {opcode : Opcode} {literals : List Const}

/-! ## Well-typed operations -/

/-- The type of a class operand: an address, as a reference or as a word. -/
def ValueType.isAddress (type : ValueType) : Bool :=
  type.isInt || type.isRef

/-- The operands of a comparison of references, of a guard, or of a claim about a class. -/
def Opcode.acceptsReferences : Opcode → List ValueType → Bool
  | .ptrEq, [.ref, .ref] | .ptrNe, [.ref, .ref] | .instancePtrEq, [.ref, .ref]
  | .instancePtrNe, [.ref, .ref] => true
  | .guardTrue, [.int] | .guardFalse, [.int] => true
  | .guardValue, [_, _] => true
  | .guardIsNull, [.ref] | .guardNonnull, [.ref] | .guardIsObject, [.ref] => true
  | .guardGcType, [.ref, .int] => true
  | .guardClass, [.ref, type] | .guardNonnullClass, [.ref, type] | .guardSubclass, [.ref, type]
  | .recordExactClass, [.ref, type] => type.isAddress
  | _, _ => false

/-- An operation of a trace of references, with operands of the right types; only comparisons
have a result. -/
def Operation.IsReferenceStep (op : Operation) : Prop :=
  op.opcode.acceptsReferences (op.args.map Value.type) = true ∧
    op.result.map Box.type = if op.opcode.isPointerComparison then some .int else none

instance (op : Operation) : Decidable op.IsReferenceStep :=
  inferInstanceAs (Decidable (_ ∧ _))

/-- A label of reference boxes, reference guards, comparisons and claims, and a jump, with every
box defined once and before it is read. -/
structure ReferenceTrace (ops : List Operation) : Prop where
  bracketed : ∃ label middle jump, Bracketed Operation.IsReferenceStep ops label middle jump ∧
    ∀ value ∈ label.args, value.type = .ref
  inScope : Scoped ops

/-- Every claim about a class that a run reaches is true. -/
def ClaimsHold (heap : Heap) (ops : List Operation) (inputs : Box → Const) : Prop :=
  ∀ position op valuation, ops[position]? = some op → op.opcode = .recordExactClass →
    runFrom heap (entry ops inputs) (ops.take position) = some (.running valuation) →
      op.checked heap valuation = some true

/-- Every box holds a value of its type. -/
def Valuation.WellTyped (valuation : Valuation) : Prop :=
  ∀ box literal, valuation box = some literal → literal.type = box.type

variable {heap : Heap} {valuation : Valuation} {op : Operation}

theorem Valuation.WellTyped.type_value (wellTyped : valuation.WellTyped) {value : Value}
    (defined : valuation.value value = some literal) : literal.type = value.type := by
  cases value with
  | const known =>
    cases defined
    rfl
  | box box => exact wellTyped box literal defined

theorem Valuation.WellTyped.types_values (wellTyped : valuation.WellTyped) {values : List Value}
    (defined : valuation.values values = some literals) :
    literals.map Const.type = values.map Value.type := by
  induction values generalizing literals with
  | nil =>
    cases defined
    rfl
  | cons value rest ih =>
    unfold Valuation.values at defined
    rw [mapM_cons] at defined
    obtain ⟨literal, isFirst, defined⟩ := bind_eq_some_iff.mp defined
    obtain ⟨others, areOthers, defined⟩ := bind_eq_some_iff.mp defined
    cases defined
    rw [map_cons, map_cons, wellTyped.type_value isFirst, ih areOthers]

theorem Const.eq_ref_of_type (isRef : literal.type = .ref) : ∃ address, literal = .ref address := by
  cases literal with
  | ref address => exact ⟨address, rfl⟩
  | int word => cases isRef
  | float number => cases isRef

theorem Const.eq_int_of_type (isInt : literal.type = .int) : ∃ word, literal = .int word := by
  cases literal with
  | int word => exact ⟨word, rfl⟩
  | ref address => cases isInt
  | float number => cases isInt

theorem Const.address?_of_isAddress (isAddress : literal.type.isAddress) :
    ∃ address, literal.address? = some address := by
  cases literal with
  | int word => exact ⟨_, rfl⟩
  | ref address => exact ⟨_, rfl⟩
  | float number => cases isAddress

theorem Const.eq_singleton_of_types {type : ValueType} (types : literals.map Const.type = [type]) :
    ∃ literal, literals = [literal] ∧ literal.type = type := by
  obtain ⟨literal, rest, rfl, isFirst, noRest⟩ := map_eq_cons_iff.mp types
  rw [map_eq_nil_iff] at noRest
  subst noRest
  exact ⟨literal, rfl, isFirst⟩

theorem Const.eq_pair_of_types {first second : ValueType}
    (types : literals.map Const.type = [first, second]) :
    ∃ left right, literals = [left, right] ∧ left.type = first ∧ right.type = second := by
  obtain ⟨left, rest, rfl, isFirst, types⟩ := map_eq_cons_iff.mp types
  obtain ⟨right, rfl, isSecond⟩ := eq_singleton_of_types types
  exact ⟨left, right, rfl, isFirst, isSecond⟩

theorem Opcode.check_of_acceptsReferences
    (accepts : opcode.acceptsReferences (literals.map Const.type))
    (isCheck : opcode.isPointerComparison = false) :
    ∃ verdict, opcode.check heap literals = some verdict := by
  unfold acceptsReferences at accepts
  split at accepts <;> rename_i types
  case h_16 => cases accepts
  -- Comparisons are no checks.
  case h_1 | h_2 | h_3 | h_4 => cases isCheck
  -- Guards for a value of any type.
  case h_5 | h_6 =>
    obtain ⟨literal, rfl, _⟩ := Const.eq_singleton_of_types types
    exact ⟨_, rfl⟩
  case h_7 =>
    obtain ⟨left, right, rfl, _⟩ := eq_pair_of_types types
    exact ⟨_, rfl⟩
  -- Guards that only read a reference.
  case h_8 | h_9 | h_10 =>
    obtain ⟨literal, rfl, isRef⟩ := Const.eq_singleton_of_types types
    obtain ⟨address, rfl⟩ := Const.eq_ref_of_type isRef
    exact ⟨_, rfl⟩
  case h_11 =>
    obtain ⟨left, right, rfl, isRef, isInt⟩ := eq_pair_of_types types
    obtain ⟨address, rfl⟩ := Const.eq_ref_of_type isRef
    obtain ⟨word, rfl⟩ := eq_int_of_type isInt
    exact ⟨_, rfl⟩
  -- Questions about a reference and a class.
  case h_12 | h_13 | h_14 | h_15 =>
    obtain ⟨left, right, rfl, isRef, isType⟩ := eq_pair_of_types types
    obtain ⟨address, rfl⟩ := Const.eq_ref_of_type isRef
    subst isType
    obtain ⟨expected, isExpected⟩ := address?_of_isAddress accepts
    exact ⟨_, by simp [check, onReference, addressArg, ref?, isExpected]; rfl⟩

theorem Opcode.evaluate_of_isPointerComparison
    (accepts : opcode.acceptsReferences (literals.map Const.type))
    (isComparison : opcode.isPointerComparison) :
    ∃ truth, opcode.evaluate literals = some (.truth truth) := by
  unfold acceptsReferences at accepts
  split at accepts <;> rename_i types
  case h_1 | h_2 | h_3 | h_4 =>
    obtain ⟨left, right, rfl, _⟩ := eq_pair_of_types types
    exact ⟨_, rfl⟩
  case h_16 => cases accepts
  all_goals cases isComparison

theorem Opcode.cases_acceptsReferences {types : List ValueType}
    (accepts : opcode.acceptsReferences types) :
    opcode.isPointerComparison ∨ opcode.isCheckedGuard ∨ opcode = .recordExactClass := by
  unfold acceptsReferences at accepts
  split at accepts
  case h_1 | h_2 | h_3 | h_4 => exact .inl rfl
  case h_15 => exact .inr (.inr rfl)
  case h_16 => cases accepts
  all_goals exact .inr (.inl rfl)

theorem Opcode.noComparison_of_isCheckedGuard (isCheckedGuard : opcode.isCheckedGuard) :
    opcode.isPointerComparison = false := by
  revert isCheckedGuard
  cases opcode <;> decide

theorem Opcode.isIntegral_of_isPointerComparison (isComparison : opcode.isPointerComparison) :
    opcode.isIntegral := by
  rw [isIntegral, isComparison, Bool.or_true]

/-- A comparison results in a word; a guard and a claim have no result. -/
theorem Operation.IsReferenceStep.cases (isStep : op.IsReferenceStep) :
    (op.opcode.isPointerComparison ∧ ∃ box, op.result = some box ∧ box.type = .int) ∨
      (op.opcode.isCheckedGuard ∧ op.result = none) ∨
      op.opcode = .recordExactClass ∧ op.result = none := by
  obtain ⟨accepts, result⟩ := isStep
  rcases Opcode.cases_acceptsReferences accepts with isComparison | isCheckedGuard | isClaim
  · rw [if_pos isComparison] at result
    exact .inl ⟨isComparison, map_eq_some_iff.mp result⟩
  · rw [Opcode.noComparison_of_isCheckedGuard isCheckedGuard, if_neg Bool.false_ne_true,
      map_eq_none_iff] at result
    exact .inr (.inl ⟨isCheckedGuard, result⟩)
  · rw [isClaim] at result
    exact .inr (.inr ⟨isClaim, map_eq_none_iff.mp result⟩)

/-! ## Progress -/

theorem Valuation.WellTyped.define (wellTyped : valuation.WellTyped) {box : Box}
    (typed : literal.type = box.type) : (valuation.define box literal).WellTyped := by
  intro other known defined
  by_cases same : other = box
  · subst same
    rw [Valuation.define_self] at defined
    cases defined
    exact typed
  · rw [Valuation.define_of_ne same] at defined
    exact wellTyped other known defined

/-- A well-typed operation whose operands are defined has an effect, and keeps boxes well-typed.
Only a broken claim stops a run. -/
theorem Operation.IsReferenceStep.execute (isStep : op.IsReferenceStep)
    (wellTyped : valuation.WellTyped) {frames : List (List Const)}
    (args : valuation.values op.args = some literals)
    (snapshot : valuation.frames op.frames = some frames)
    (claim : op.opcode = .recordExactClass → op.checked heap valuation = some true) :
    ∃ effect, op.execute heap valuation = some effect ∧
      ∀ next, effect = .next next → next.WellTyped := by
  obtain ⟨accepts, result⟩ := isStep
  have literalTypes := wellTyped.types_values args
  rw [← literalTypes] at accepts
  rcases Opcode.cases_acceptsReferences accepts with isComparison | isCheckedGuard | isClaim
  · obtain ⟨truth, evaluated⟩ := Opcode.evaluate_of_isPointerComparison accepts isComparison
    rw [if_pos isComparison] at result
    obtain ⟨box, isResult, isInt⟩ := map_eq_some_iff.mp result
    have integral := Opcode.isIntegral_of_isPointerComparison isComparison
    refine ⟨_, by rw [op.execute_value integral isResult, computed, args, bind_some,
      evaluated, map_some], ?_⟩
    rintro next ⟨⟩
    exact wellTyped.define isInt.symm
  · have isGuard : op.isGuard = true := Opcode.isGuard_of_isCheckedGuard isCheckedGuard
    have noComparison : op.opcode.isPointerComparison = false :=
      Opcode.noComparison_of_isCheckedGuard isCheckedGuard
    obtain ⟨passes, isVerdict⟩ := Opcode.check_of_acceptsReferences accepts noComparison
    have checked : op.checked heap valuation = some passes := by
      rw [Operation.checked, args, bind_some, isVerdict]
    cases passes with
    | true =>
      refine ⟨_, op.execute_of_checked isGuard checked, ?_⟩
      rintro next ⟨⟩
      exact wellTyped
    | false =>
      refine ⟨_, op.execute_of_failed isGuard checked snapshot, ?_⟩
      rintro next ⟨⟩
  · refine ⟨.next valuation, ?_, ?_⟩
    · rw [op.execute_claim isClaim, claim isClaim]
      rfl
    rintro next ⟨⟩
    exact wellTyped

theorem Operation.IsReferenceStep.isIntegral (isStep : op.IsReferenceStep)
    (isResult : op.result ≠ none) : op.opcode.isIntegral := by
  have isComparison : op.opcode.isPointerComparison = true := by
    by_contra noComparison
    have noResult := isStep.2
    rw [if_neg noComparison, map_eq_none_iff] at noResult
    exact isResult noResult
  exact Opcode.isIntegral_of_isPointerComparison isComparison

section

variable {ops middle : List Operation} {label jump : Operation} {addresses : Box → UInt64}

section

variable (bracketed : Bracketed Operation.IsReferenceStep ops label middle jump)

include bracketed

theorem wellTyped_entry (refs : ∀ value ∈ label.args, value.type = .ref) :
    (entry ops fun box => .ref (addresses box)).WellTyped := by
  intro box literal defined
  rw [bracketed.shape] at defined
  change (if _ then _ else _) = _ at defined
  split at defined
  next member =>
    cases defined
    exact (refs _ member).symm
  · cases defined

theorem execute_of_bracketed (inScope : Scoped ops)
    (claims : ClaimsHold heap ops fun box => .ref (addresses box))
    (found : ops[position]? = some op) (wellTyped : valuation.WellTyped)
    (runs : runFrom heap (entry ops fun box => .ref (addresses box)) (ops.take position) =
      some (.running valuation)) :
    ∃ effect, op.execute heap valuation = some effect ∧
      ∀ next, effect = .next next → next.WellTyped := by
  have results := bracketed.resultsAreIntegral fun _ isStep => isStep.isIntegral
  obtain ⟨literals, args⟩ := inScope.values_args results found runs
  obtain ⟨frames, snapshot⟩ := inScope.values_frames results found runs
  by_cases before : position < middle.length + 1
  · rcases bracketed.cases_getElem? before found with ⟨_, rfl⟩ | isStep
    · refine ⟨_, op.execute_label bracketed.isLabel heap valuation, ?_⟩
      rintro next ⟨⟩
      exact wellTyped
    · exact isStep.execute wellTyped args snapshot fun isClaim =>
        claims position op valuation found isClaim runs
  · obtain ⟨inside, _⟩ := List.getElem?_eq_some_iff.mp found
    have isLast : position = middle.length + 1 := by
      have := bracketed.length
      omega
    subst isLast
    cases bracketed.getElem?_jump.symm.trans found
    refine ⟨.jump literals, ?_, ?_⟩
    · rw [op.execute_jump bracketed.isJump, args, map_some]
    · rintro next ⟨⟩

theorem runFrom_of_bracketed (refs : ∀ value ∈ label.args, value.type = .ref) (inScope : Scoped ops)
    (claims : ClaimsHold heap ops fun box => .ref (addresses box)) (inside : position ≤ ops.length)
    :
    ∃ progress, runFrom heap (entry ops fun box => .ref (addresses box)) (ops.take position) =
      some progress ∧ ∀ valuation, progress = .running valuation → valuation.WellTyped := by
  induction position with
  | zero =>
    refine ⟨_, rfl, ?_⟩
    rintro valuation ⟨⟩
    exact wellTyped_entry bracketed refs
  | succ position ih =>
    obtain ⟨op, found⟩ : ∃ op, ops[position]? = some op := ⟨_, getElem?_eq_getElem inside⟩
    obtain ⟨progress, ran, wellTyped⟩ := ih (Nat.le_of_lt inside)
    rw [runFrom_take_succ found, ran, bind_some]
    cases progress with
    | running valuation =>
      obtain ⟨effect, executed, kept⟩ :=
        execute_of_bracketed bracketed inScope claims found (wellTyped valuation rfl) ran
      refine ⟨effect.progress position, by rw [Progress.advance, executed, map_some],
        fun next isRunning => ?_⟩
      cases effect with
      | next valuation =>
        cases isRunning
        exact kept _ rfl
      | leave frames => cases isRunning
      | jump args => cases isRunning
    | left failed frames => exact ⟨_, rfl, fun _ isRunning => Progress.noConfusion isRunning⟩
    | jumped args => exact ⟨_, rfl, fun _ isRunning => Progress.noConfusion isRunning⟩

end

end

/-! ## Simplification -/

/-- What the target says about constant objects stays true. -/
theorem soundSteps_reference (heap : Heap) :
    SoundSteps heap Operation.IsReferenceStep fun facts => facts.target.Describes heap where
  kept before after target _ describes := by
    rw [target]
    exact describes
  step op walk next isStep coherent describes handled := by
    have ofStepped : Stepped heap op walk.facts next.facts →
        Stepped heap op walk.facts next.facts ∧ next.facts.target.Describes heap := by
      intro stepped
      refine ⟨stepped, ?_⟩
      rw [stepped.target]
      exact describes
    rcases isStep.cases with
      ⟨isComparison, box, isResult, _⟩ | ⟨isCheckedGuard, isVoid⟩ | ⟨isClaim, isVoid⟩
    · have integral := Opcode.isIntegral_of_isPointerComparison isComparison
      obtain ⟨stepped, _⟩ := of_handle False (fun after =>
        Stepped heap op walk.facts after ∧ after.pointers = walk.facts.pointers) handled
        fun counted facts => by
          rw [← facts] at coherent describes ⊢
          exact step_value coherent (fun _ => describes) integral isResult
      exact ofStepped stepped
    · exact ofStepped (of_handle (walk.facts.Refutes heap op ∨ walk.facts.Unlisted heap op)
        (Stepped heap op walk.facts) handled fun counted facts => by
          rw [← facts] at coherent describes ⊢
          exact step_guard coherent describes isCheckedGuard isVoid)
    · exact ofStepped (of_handle (walk.facts.Refutes heap op)
        (Stepped heap op walk.facts) handled fun counted facts => by
          rw [← facts] at coherent describes ⊢
          exact step_claim coherent describes isClaim isVoid)

/-- The simplified trace passes all its guards just when the trace does, with the same values at
the jump; where it leaves, it has the snapshot of a guard that is not later than the failing
one. -/
theorem run_simplify_of_referenceTrace {target : Target} {trace output : Trace}
    {stats : PeepholeStats} (reference : ReferenceTrace trace.ops)
    (simplified : trace.simplify target = .ok (output, stats)) {heap : Heap}
    (describes : target.Describes heap) {addresses : Box → UInt64}
    (claims : ClaimsHold heap trace.ops fun box => .ref (addresses box)) :
    (∃ args, run heap trace.ops (fun box => .ref (addresses box)) = some (.jumped args) ∧
      run heap output.ops (fun box => .ref (addresses box)) = some (.jumped args)) ∨
    ∃ failed original position frames origin,
      run heap trace.ops (fun box => .ref (addresses box)) = some (.left failed original) ∧
      run heap output.ops (fun box => .ref (addresses box)) = some (.left position frames) ∧
      origin ≤ failed ∧ trace.EmittedFor target origin position ∧
      SnapshotAt heap (entry trace.ops fun box => .ref (addresses box)) trace.ops origin
        frames := by
  obtain ⟨label, middle, jump, bracketed, refs⟩ := reference.bracketed
  have results := bracketed.resultsAreIntegral fun _ isStep => isStep.isIntegral
  obtain ⟨progress, ran, _⟩ :=
    runFrom_of_bracketed bracketed refs reference.inScope claims (Nat.le_refl _)
  rw [List.take_length] at ran
  rcases run_of_simplify bracketed reference.inScope results (soundSteps_reference heap) describes
    simplified ran with ⟨args, rfl, outputRan⟩ | ⟨failed, original, position, frames, origin, rfl,
      outputRan, notLater, _, emitted, snapshot⟩
  · exact Or.inl ⟨args, ran, outputRan⟩
  · exact Or.inr ⟨failed, original, position, frames, origin, ran, outputRan, notLater, emitted,
      snapshot⟩

/-! ## A trace with a claim and a merged guard -/

namespace CheckedReferences

def first : Box := ⟨0, .ref⟩

def second : Box := ⟨1, .ref⟩

def label : Operation := { opcode := .label, args := [.box first, .box second] }

def claim : Operation := { opcode := .recordExactClass, args := [.box second, .int 4096] }

def nonnull : Operation :=
  { opcode := .guardNonnull, args := [.box first], snapshot := some (.root [.box first]) }

def classGuard (box : Box) : Operation :=
  { opcode := .guardClass, args := [.box box, .int 4096],
    snapshot := some (.root [.box first, .box second]) }

def jump : Operation := { opcode := .jump, args := [.box first, .box second] }

def trace : Trace := { ops := [label, claim, nonnull, classGuard first, classGuard second, jump] }

/-- The guard against null, strengthened to the guard for the class. -/
def merged : Operation :=
  { opcode := .guardNonnullClass, args := [.box first, .int 4096],
    descriptor := some (.guard .guard), snapshot := some (.root [.box first]) }

def entered (target : Target) : Facts := { target := target, output := #[label] }

def claimed (target : Target) : Facts :=
  { entered target with
    pointers := (∅ : Std.HashMap Box PointerFact).insert second
      (({} : PointerFact).withClass 4096) }

def guarded (target : Target) : Facts :=
  { claimed target with
    pointers := (claimed target).pointers.insert first
      (({} : PointerFact).withNonnull.withLastGuard 1)
    output := #[label, nonnull] }

def strengthened (target : Target) : Facts :=
  { guarded target with
    pointers := (guarded target).pointers.insert first
      ((({} : PointerFact).withNonnull.withLastGuard 1).withClass 4096)
    output := #[label, merged] }

section

variable (target : Target) (stats : PeepholeStats)

include target stats

theorem claims : countedStep claim { facts := entered target, stats := stats } =
      .ok () { facts := claimed target, stats := { stats with opsIn := stats.opsIn + 1 } } := by
  have unknown : (entered target).pointers.getD second {} = {} := getD_empty
  have noClass : ((entered target).pointer ((entered target).resolve (.box second))).knownClass =
      none := by
    change ((entered target).pointers.getD second {}).knownClass = none
    rw [unknown]
  have isSubject : claim.arg 0 = .ok (.box second) := rfl
  have isClass : claim.arg 1 = .ok (.int 4096) := rfl
  have address : (entered target).address? (.int 4096) = some 4096 := rfl
  change recordExactClass claim
    { facts := entered target, stats := { stats with opsIn := stats.opsIn + 1 } } = _
  simp only [recordExactClass, currentFacts_bind, lift_bind isSubject,
    lift_bind isClass, address, noClass]
  change EStateM.Result.ok () ({ facts := { entered target with
    pointers := (entered target).pointers.insert second
      (((entered target).pointers.getD second {}).withClass 4096) }, stats := _ } : Peephole) = _
  rw [unknown]
  rfl

theorem guards : countedStep nonnull { facts := claimed target, stats := stats } =
      .ok () { facts := guarded target, stats := { stats with opsIn := stats.opsIn + 1 } } := by
  have unknown : (claimed target).pointers.getD first {} = {} := by
    rw [claimed, getD_insert, if_neg (by decide), getD_empty]
  change (if ((claimed target).pointers.getD first {}).isNonnull = true then _
    else if ((claimed target).pointers.getD first {}).isNull = true then _ else _ :
      PeepholeM Unit) _ = _
  rw [unknown]
  change EStateM.Result.ok () ({ facts := { claimed target with
    pointers := (claimed target).pointers.insert first
      (((claimed target).pointers.getD first {}).withNonnull.withLastGuard 1)
    output := #[label, nonnull] }, stats := _ } : Peephole) = _
  rw [unknown]
  rfl

theorem merges : countedStep (classGuard first) { facts := guarded target, stats := stats } =
      .ok () { facts := strengthened target,
               stats := { stats with
                 opsIn := stats.opsIn + 1, guardsMerged := stats.guardsMerged + 1 } } := by
  have known : (guarded target).pointers.getD first {} =
      ({} : PointerFact).withNonnull.withLastGuard 1 := by
    rw [guarded, getD_insert_self]
  have pointer : (guarded target).pointer ((guarded target).resolve (.box first)) =
      ({} : PointerFact).withNonnull.withLastGuard 1 := known
  have isSubject : (classGuard first).arg 0 = .ok (.box first) := rfl
  have isClass : (classGuard first).arg 1 = .ok (.int 4096) := rfl
  have address : ((guarded target).resolve (.int 4096)).const?.bind address? = some 4096 := rfl
  have noClass : (({} : PointerFact).withNonnull.withLastGuard 1).knownClass = none := rfl
  change guardClass (classGuard first)
    { facts := guarded target, stats := { stats with opsIn := stats.opsIn + 1 } } = _
  simp only [guardClass, currentFacts_bind, lift_bind isSubject,
    lift_bind isClass, address, pointer, noClass]
  change EStateM.Result.ok () ({ facts := { guarded target with
    pointers := (guarded target).pointers.insert first
      (((guarded target).pointers.getD first {}).withClass 4096)
    output := #[label, merged] }, stats := _ } : Peephole) = _
  rw [known]
  rfl

theorem drops : countedStep (classGuard second) { facts := strengthened target, stats := stats } =
      .ok () { facts := strengthened target,
               stats := { stats with
                 opsIn := stats.opsIn + 1, guardsRemoved := stats.guardsRemoved + 1 } } := by
  have known : (strengthened target).pointers.getD second {} =
      ({} : PointerFact).withClass 4096 := by
    rw [strengthened, getD_insert, if_neg (by decide), guarded,
      getD_insert, if_neg (by decide), claimed, getD_insert_self]
  have pointer : (strengthened target).pointer ((strengthened target).resolve (.box second)) =
      ({} : PointerFact).withClass 4096 := known
  have isSubject : (classGuard second).arg 0 = .ok (.box second) := rfl
  have isClass : (classGuard second).arg 1 = .ok (.int 4096) := rfl
  have address : ((strengthened target).resolve (.int 4096)).const?.bind address? = some 4096 := rfl
  have hasClass : (({} : PointerFact).withClass 4096).knownClass = some 4096 := rfl
  change guardClass (classGuard second)
    { facts := strengthened target, stats := { stats with opsIn := stats.opsIn + 1 } } = _
  simp only [guardClass, currentFacts_bind, lift_bind isSubject,
    lift_bind isClass, address, pointer, hasClass]
  rfl

end

theorem simplifies (target : Target) :
    ∃ output stats, trace.simplify target = .ok (output, stats) := by
  have enters : countedStep label (.start target trace) =
      .ok () { facts := entered target, stats := { opsIn := 1 } } := rfl
  exact Trace.simplify_of_forM ((forM_of_ok enters).trans
    ((forM_of_ok (claims target _)).trans ((forM_of_ok (guards target _)).trans
      ((forM_of_ok (merges target _)).trans ((forM_of_ok (drops target _)).trans rfl)))))

def twoInstances : Heap where
  classOf address := if address = 16 then some 4096 else if address = 32 then some 8192 else none
  typeIdOf _ := none
  subclassRange _ := none
  classOf_null := rfl

theorem claimsHold (addresses : Box → UInt64) (isInstance : addresses second = 16) :
    ClaimsHold twoInstances trace.ops fun box => .ref (addresses box) := by
  intro position op valuation found opcode runs
  rcases position with _ | _ | _ | _ | _ | _ | position
  case succ.zero =>
    cases found
    cases runs
    change some (twoInstances.classOf (addresses second) == some 4096) = some true
    rw [isInstance]
    rfl
  case succ.succ.succ.succ.succ.succ => cases found
  all_goals
    cases found
    cases opcode

end CheckedReferences

open CheckedReferences in
/-- One input passes all guards.  Another fails the class guard, and the output leaves at the
guard against null that was strengthened. -/
theorem run_simplify_of_checkedReferences :
    ∃ output stats, CheckedReferences.trace.simplify .sse = .ok (output, stats) ∧
      run twoInstances output.ops (fun _ => .ref 16) = some (.jumped [.ref 16, .ref 16]) ∧
      ∃ position frames origin,
        run twoInstances output.ops (fun box => .ref (if box = first then 32 else 16)) =
          some (.left position frames) ∧
        origin ≤ 3 ∧ CheckedReferences.trace.EmittedFor .sse origin position ∧
        SnapshotAt twoInstances (entry CheckedReferences.trace.ops fun box =>
          .ref (if box = first then 32 else 16)) CheckedReferences.trace.ops origin frames := by
  obtain ⟨output, stats, simplified⟩ := simplifies .sse
  have reference : ReferenceTrace CheckedReferences.trace.ops :=
    ⟨⟨_, [_, _, _, _], _, ⟨rfl, rfl, rfl, rfl, rfl, by decide⟩, by decide⟩, by decide⟩
  have describes : Target.sse.Describes twoInstances := ⟨nofun, nofun, nofun⟩
  have passes : run twoInstances CheckedReferences.trace.ops (fun _ => .ref 16) =
      some (.jumped [.ref 16, .ref 16]) := rfl
  have fails : run twoInstances CheckedReferences.trace.ops
      (fun box => .ref (if box = first then 32 else 16)) =
        some (.left 3 [[.ref 32, .ref 16]]) := rfl
  refine ⟨output, stats, simplified, ?_, ?_⟩
  · rcases run_simplify_of_referenceTrace reference simplified describes
      (claimsHold (fun _ => 16) rfl) with ⟨args, ran, outputRan⟩ | ⟨_, _, _, _, _, ran, _⟩
    · cases passes.symm.trans ran
      exact outputRan
    · cases passes.symm.trans ran
  · rcases run_simplify_of_referenceTrace reference simplified describes
      (claimsHold (fun box => if box = first then 32 else 16) rfl) with
      ⟨args, ran, _⟩ | ⟨_, _, position, frames, origin, ran, outputRan, notLater, emitted, snapshot⟩
    · cases fails.symm.trans ran
    · cases fails.symm.trans ran
      exact ⟨position, frames, origin, outputRan, notLater, emitted, snapshot⟩

end LinearTrace
