import LinearTrace.Proofs.Peephole.Reference

/-!
# Constants that a walk can name

A walk over a trace of references makes no address up: every constant reference
that a box is known to be is null or stands among the operands of the trace.
-/

namespace LinearTrace

open Option

variable {value : Value} {literal : Const} {simplified : Simplified}

/-- A constant reference is one of the named ones. -/
def Const.IsNamed (named : UInt64 → Prop) (literal : Const) : Prop :=
  ∀ address, literal = .ref address → named address

/-- A value that is a constant reference is one of the named ones. -/
def Value.IsNamed (named : UInt64 → Prop) : Value → Prop
  | .const literal => literal.IsNamed named
  | .box _ => True

variable {named : UInt64 → Prop} {facts : Facts} {op : Operation} {box : Box} {excuse : Prop}

theorem Const.isNamed_int (named : UInt64 → Prop) (word : Int64) :
    (Const.int word).IsNamed named := by
  rintro address ⟨⟩

/-! ## Facts -/

namespace Facts

/-- Every constant reference that the facts put in place of a value is a named one. -/
structure NamesOnly (named : UInt64 → Prop) (facts : Facts) : Prop where
  replaced : ∀ (box : Box) (value : Value), facts.replacements[box]? = some value →
    value.IsNamed named
  known : ∀ opcode args value, facts.known.lookup opcode args = some value → value.IsNamed named

theorem namesOnly_start (target : Target) (trace : Trace) :
    (Facts.start target trace).NamesOnly named := by
  constructor
  · intro box value entry
    rw [Facts.start, Std.HashMap.getElem?_empty] at entry
    cases entry
  · intro opcode args value found
    rw [KnownResults.lookup, Facts.start, Std.HashMap.getElem?_empty] at found
    cases found

namespace NamesOnly

section

variable (names : facts.NamesOnly named)

include names

theorem resolve (isNamed : value.IsNamed named) : (facts.resolve value).IsNamed named := by
  unfold Facts.resolve
  generalize facts.replacements.size = steps
  induction steps generalizing value with
  | zero =>
    cases value with
    | const literal => exact isNamed
    | box box => exact trivial
  | succ steps ih =>
    cases value with
    | const literal => exact isNamed
    | box box =>
      rw [follow]
      cases entry : facts.replacements[box]? with
      | none => exact trivial
      | some next => exact ih (names.replaced box next entry)

theorem constant? (isNamed : value.IsNamed named)
    (isConstant : facts.constant? value = some literal) : literal.IsNamed named := by
  have resolved := names.resolve isNamed
  unfold Facts.constant? at isConstant
  split at isConstant
  next known isKnown =>
    rw [isKnown] at resolved
    cases isConstant
    exact resolved
  · split at isConstant
    · obtain ⟨word, _, rfl⟩ := map_eq_some_iff.mp isConstant
      exact Const.isNamed_int named word
    · cases isConstant

theorem insert (isNamed : value.IsNamed named) (box : Box) :
    ({ facts with replacements := facts.replacements.insert box value } : Facts).NamesOnly
      named := by
  refine ⟨fun other found entry => ?_, names.known⟩
  rcases eq_or_getElem?_of_insert entry with ⟨_, rfl⟩ | ⟨_, entry⟩
  · exact isNamed
  · exact names.replaced other found entry

theorem makeConstant (value : Value) (isNamed : literal.IsNamed named) :
    (facts.makeConstant value literal).NamesOnly named := by
  unfold Facts.makeConstant
  split
  · exact names
  next box _ =>
    have inserted := names.insert (show (Value.const literal).IsNamed named from isNamed) box
    exact ⟨inserted.replaced, inserted.known⟩

theorem makeEqual (box : Box) (isNamed : value.IsNamed named) :
    (facts.makeEqual box value).NamesOnly named := by
  unfold Facts.makeEqual
  dsimp only
  split
  · exact names
  · exact names.insert (names.resolve isNamed) box

theorem updatePointer (value : Value) (update : PointerFact → PointerFact) :
    (facts.updatePointer value update).NamesOnly named := by
  rw [updatePointer_eq]
  exact ⟨names.replaced, names.known⟩

theorem afterEmit (isVoid : op.result = none) : (facts.afterEmit op).NamesOnly named := by
  unfold Facts.afterEmit Facts.append
  rw [show (facts.resolveOperation op).result = none from isVoid]
  exact ⟨names.replaced, names.known⟩

theorem append (op : Operation) (interval : Interval) :
    (facts.append op interval).NamesOnly named := by
  unfold Facts.append
  split
  next result _ =>
    refine ⟨names.replaced, fun opcode args value found => ?_⟩
    change (if isReusable op then facts.known.record op.opcode op.args (.box result)
      else facts.known).lookup opcode args = some value at found
    split at found
    · rw [KnownResults.lookup, KnownResults.record, Std.HashMap.getElem?_insertIfNew] at found
      split at found
      · cases found
        exact trivial
      · exact names.known opcode args value found
    · exact names.known opcode args value found
  · exact ⟨names.replaced, names.known⟩

end

theorem keptByNarrowing (named : UInt64 → Prop) : KeptByNarrowing (NamesOnly named) where
  intervals _ _ names := ⟨names.replaced, names.known⟩
  makeWord _ _ _ names := names.makeConstant _ (Const.isNamed_int named _)

end NamesOnly

end Facts

/-! ## Guards and claims -/

namespace Peephole

open Facts

variable {walk : Peephole}

/-- A guard leaves constants behind that it has as operands, truth values and null. -/
theorem names_guard (names : walk.facts.NamesOnly named) (null : named 0)
    (args : ∀ value ∈ op.args, value.IsNamed named) (isGuard : op.isGuard)
    (isVoid : op.result = none) :
    Ensures True (step op) walk fun _ after => after.facts.NamesOnly named := by
  have expected : ∀ literal, walk.facts.Expects op literal → literal.IsNamed named := by
    rintro literal (⟨truth, rfl⟩ | rfl | ⟨value, isArg, isConstant⟩)
    · exact Const.isNamed_int named _
    · rintro address ⟨⟩
      exact null
    · exact names.constant? (args value isArg) isConstant
  refine (guardStep_step isGuard).weaken fun _ after stepped => ?_
  cases stepped with
  | removed _ _ => exact names
  | kept _ learned =>
    have emitted := names.afterEmit isVoid
    cases learned with
    | nothing => exact emitted
    | constant _ isExpected narrowed =>
      refine NamesOnly.makeConstant ?_ _ (expected _ isExpected)
      rcases narrowed with rfl | ⟨truth, _, ran⟩
      · exact emitted
      · exact ((NamesOnly.keptByNarrowing named).narrowCondition _ truth emitted).of_ok ran
    | pointer _ _ _ =>
      dsimp only
      exact emitted.updatePointer _ _
  | merged _ _ _ _ _ _ _ _ learned =>
    induction learned with
    | pointer _ =>
      refine NamesOnly.updatePointer ?_ _ _
      exact ⟨names.replaced, names.known⟩
    | constant _ isExpected _ ih => exact ih.makeConstant _ (expected _ isExpected)

theorem names_recordExactClass (names : walk.facts.NamesOnly named) :
    Ensures True (recordExactClass op) walk fun _ after => after.facts.NamesOnly named := by
  refine .bind_currentFacts_arg fun source _ => ?_
  refine .bind_arg fun second _ => ?_
  split
  · exact names
  split
  · split
    · exact trivial
    · exact names
  · exact names.updatePointer _ (PointerFact.withClass · _)

/-! ## Comparisons -/

theorem isNamed_of_evaluate {opcode : Opcode} (isComparison : opcode.isPointerComparison)
    {literals : List Const} (evaluated : opcode.evaluate literals = some literal) :
    literal.IsNamed named := by
  have isWord : ∀ {truth : UInt64 → UInt64 → Bool},
      Opcode.onBits literals (fun x y => some (.truth (truth x y))) = some literal →
        literal.IsNamed named := by
    intro truth found
    obtain ⟨left, right, _, _, found⟩ := Opcode.onBits_eq_some.mp found
    cases found
    exact Const.isNamed_int named _
  cases opcode with
  | ptrEq | ptrNe | instancePtrEq | instancePtrNe => exact isWord evaluated
  | _ => cases isComparison

theorem isNamed_of_reuse? (names : facts.NamesOnly named)
    (isComparison : op.opcode.isPointerComparison) {emission : Emission}
    (reused : facts.reuse? op box = some emission) :
    (facts.perform op emission).NamesOnly named := by
  unfold Facts.reuse? at reused
  split at reused
  · split at reused
    next literal folded =>
      cases reused
      obtain ⟨literals, _, evaluated⟩ := bind_eq_some_iff.mp folded
      exact names.makeConstant _ (isNamed_of_evaluate isComparison evaluated)
    · obtain ⟨value, known, rfl⟩ := map_eq_some_iff.mp reused
      exact names.makeEqual _ (names.known _ _ _ known)
  · cases reused

theorem names_emission (names : facts.NamesOnly named)
    (isComparison : op.opcode.isPointerComparison) :
    EnsuresValue True (facts.emission op) fun emission =>
      (facts.perform op emission).NamesOnly named := by
  unfold Facts.emission
  split
  · exact names.append op _
  split
  next reused => exact isNamed_of_reuse? names isComparison reused
  split
  · refine .bind (.of_ok fun _ found => found) fun interval _ => ?_
    split
    · exact names.makeConstant _ (Const.isNamed_int named _)
    · exact names.append op _
  · exact names.append op _

theorem names_emitComparison (names : walk.facts.NamesOnly named)
    (isComparison : op.opcode.isPointerComparison) :
    Ensures True (emit op) walk fun _ after => after.facts.NamesOnly named := by
  have emits : Ensures True (Facts.emit op) walk.facts fun _ after => after.NamesOnly named := by
    have resolved : (walk.facts.resolveOperation op).opcode.isPointerComparison = true :=
      isComparison
    exact .bind_get (Ensures.bind_lift ((names_emission names resolved).weaken fun _ kept => kept))
  exact .bind_onFacts emits fun _ _ kept => kept

/-- What a comparison may become: a word, a known result, or itself. -/
def IsVerdict (named : UInt64 → Prop) (op : Operation) : Simplified → Prop
  | .word _ _ => True
  | .names _ value => value.IsNamed named
  | .keep kept reversible => kept = op ∧ reversible = false
  | _ => False

theorem names_perform (names : walk.facts.NamesOnly named)
    (isComparison : op.opcode.isPointerComparison) (isVerdict : IsVerdict named op simplified) :
    Ensures True (perform simplified) walk fun _ after => after.facts.NamesOnly named := by
  cases simplified with
  | word result value => exact names.makeConstant _ (Const.isNamed_int named value)
  | names result value => exact names.makeEqual result isVerdict
  | keep kept reversible =>
    obtain ⟨rfl, rfl⟩ := isVerdict
    exact names_emitComparison names isComparison
  | cheaper _ _ | equals _ _ | nothing => exact isVerdict.elim

theorem isVerdict_of_decidedInverse? {inverse : Option Opcode} {args : List Value}
    (found : decidedInverse? facts box inverse args = some simplified) :
    IsVerdict named op simplified := by
  obtain ⟨opcode, _, found⟩ := bind_eq_some_iff.mp found
  obtain ⟨known, _, found⟩ := bind_eq_some_iff.mp found
  dsimp only at found
  split at found
  · cases found
    exact trivial
  split at found
  · cases found
    exact trivial
  · cases found

theorem isVerdict_of_simplifyComparison? (names : facts.NamesOnly named)
    (found : facts.simplifyComparison? op = some simplified) : IsVerdict named op simplified := by
  unfold simplifyComparison? at found
  split at found
  · simp only [orElse_eq_orElse, orElse_eq_or, or_eq_some_iff] at found
    rcases found with inverted | ⟨_, reflected | ⟨_, inverted⟩⟩
    · exact isVerdict_of_decidedInverse? inverted
    · obtain ⟨reflex, _, reflected⟩ := bind_eq_some_iff.mp reflected
      obtain ⟨value, known, reflected⟩ := bind_eq_some_iff.mp reflected
      cases reflected
      exact names.known _ _ _ known
    · exact isVerdict_of_decidedInverse? inverted
  · cases found

theorem isVerdict_simplifyPointers (named : UInt64 → Prop) (facts : Facts) (op : Operation)
    (box : Box) (negated ofInstances : Bool) :
    EnsuresValue True (facts.simplifyPointers op box negated ofInstances) (IsVerdict named op) := by
  refine .bind (.of_ok fun _ found => found) fun first _ => ?_
  refine .bind (.of_ok fun _ found => found) fun second _ => ?_
  dsimp only
  split
  · exact trivial
  · exact ⟨rfl, rfl⟩

theorem isVerdict_simplify (named : UInt64 → Prop) (facts : Facts)
    (isComparison : op.opcode.isPointerComparison) (result : op.result = some box) :
    EnsuresValue True (facts.simplify op) (IsVerdict named op) := by
  unfold simplify simplifyResult
  cases opcode : op.opcode with
  | ptrEq | ptrNe | instancePtrEq | instancePtrNe =>
    rw [result]
    exact isVerdict_simplifyPointers named facts op box _ _
  | _ =>
    rw [opcode] at isComparison
    cases isComparison

theorem names_comparison (names : walk.facts.NamesOnly named)
    (isComparison : op.opcode.isPointerComparison) (result : op.result = some box) :
    Ensures True (step op) walk fun _ after => after.facts.NamesOnly named := by
  refine .bind_currentFacts ?_
  split
  next simplified found =>
    exact names_perform names isComparison (isVerdict_of_simplifyComparison? names found)
  have simplified : Ensures True (do perform (← liftM (walk.facts.simplify op))) walk
      fun _ after => after.facts.NamesOnly named :=
    Ensures.bind_lift ((isVerdict_simplify named walk.facts isComparison result).weaken
      fun _ isVerdict => names_perform names isComparison isVerdict)
  cases opcode : op.opcode with
  | ptrEq | ptrNe | instancePtrEq | instancePtrNe => exact simplified
  | _ =>
    rw [opcode] at isComparison
    cases isComparison

/-! ## Whole walks -/

theorem names_claim (names : walk.facts.NamesOnly named) (isVoid : op.result = none)
    (opcode : op.opcode = .recordExactClass) :
    Ensures True (step op) walk fun _ after => after.facts.NamesOnly named := by
  refine .bind_currentFacts ?_
  rw [simplifyComparison?_of_void isVoid, opcode]
  exact names_recordExactClass names

theorem names_step (names : walk.facts.NamesOnly named) (null : named 0)
    (args : ∀ value ∈ op.args, value.IsNamed named) (isStep : op.IsReferenceStep) :
    Ensures True (step op) walk fun _ after => after.facts.NamesOnly named := by
  rcases isStep.cases with
    ⟨isComparison, box, isResult, _⟩ | ⟨isCheckedGuard, isVoid⟩ | ⟨isClaim, isVoid⟩
  · exact names_comparison names isComparison isResult
  · exact names_guard names null args (Opcode.isGuard_of_isCheckedGuard isCheckedGuard) isVoid
  · exact names_claim names isVoid isClaim

end Peephole

/-- The operands of the operations are null or named, and so is what their walk knows. -/
theorem Trace.namesOnly_of_walkTo {target : Target} {trace : Trace} {label jump : Operation}
    {middle : List Operation}
    (bracketed : Bracketed Operation.IsReferenceStep trace.ops label middle jump) (null : named 0)
    (args : ∀ op ∈ trace.ops, ∀ value ∈ op.args, value.IsNamed named) {count : Nat}
    (before : count ≤ middle.length + 1) {walk : Peephole}
    (walked : trace.walkTo target count = some walk) : walk.facts.NamesOnly named := by
  induction count generalizing walk with
  | zero =>
    cases walked
    exact Facts.namesOnly_start target trace
  | succ count ih =>
    have inside : count < trace.ops.length := by
      have := bracketed.length
      omega
    obtain ⟨op, previous, found, walkedTo, handled⟩ := Trace.walkTo_succ_eq_some inside walked
    have names := ih (Nat.le_of_succ_le before) walkedTo
    rcases bracketed.cases_getElem? before found with ⟨_, rfl⟩ | isStep
    · rw [Peephole.handle_frame handled (.inl bracketed.isLabel) bracketed.labelIsVoid]
      exact names.afterEmit bracketed.labelIsVoid
    · refine Peephole.of_handle True (·.NamesOnly named) handled fun counted same => ?_
      rw [← same] at names
      exact Peephole.names_step names null (args op (List.mem_of_getElem? found)) isStep

end LinearTrace
