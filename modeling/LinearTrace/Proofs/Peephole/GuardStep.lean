import LinearTrace.Peephole.Walk
import LinearTrace.Proofs.Facts.Scope
import LinearTrace.Proofs.Peephole.Guard

/-!
# What a rule does with a guard

A guard that the facts settle is dropped and counted, a guard on a reference may strengthen an
earlier guard in place, and every other guard is appended.  Where the facts may be trusted, each of
these is sound, and the walk stops with a contradiction only at a guard that passes in no run.
-/

namespace LinearTrace

open List Option Operation Ensures

/-- The guards that the walk checks against what it knows. -/
def Opcode.isCheckedGuard : Opcode → Bool
  | .guardTrue | .guardFalse | .guardValue | .guardIsNull | .guardNonnull | .guardIsObject
  | .guardGcType | .guardSubclass | .guardClass | .guardNonnullClass => true
  | _ => false

theorem Opcode.isGuard_of_isCheckedGuard {opcode : Opcode}
    (checked : opcode.isCheckedGuard) : opcode.isGuard := by
  revert checked
  cases opcode <;> decide

variable {heap : Heap} {op : Operation} {walk after : Peephole} {excuse : Prop}

namespace Facts

variable {facts before : Facts}

/-- The constants that a value may be learned to be from a guard. -/
def Expects (facts : Facts) (op : Operation) (literal : Const) : Prop :=
  (∃ truth, literal = .truth truth) ∨ literal = .null ∨
    ∃ value ∈ op.args, facts.constant? value = some literal

/-- The facts settle a guard: it passes wherever they are true, and a guard against an exception
follows a call that was dropped. -/
structure Settles (facts : Facts) (op : Operation) : Prop where
  passes : ∀ heap, facts.target.Describes heap → facts.Passes heap op
  kind : op.opcode.isCheckedGuard = true ∨
    op.opcode = .guardNoException ∧ facts.lastRemoved = true

/-- A guard goes into the one that is remembered for its reference, unless that resumes at its
position: a guard for a constant if the classes agree, a guard for a class into one against null
while no class is known. -/
def Absorbs (facts : Facts) (op : Operation) : Prop :=
  ∃ source second box position earlier, op.args[0]? = some source ∧ op.args[1]? = some second ∧
    facts.resolve source = .box box ∧ (facts.pointer (.box box)).lastGuard = some position ∧
    facts.output[position]? = some earlier ∧ earlier.resume ≠ .atPosition ∧
    (op.opcode = .guardValue ∧ box.type.isRef = true ∧
        (∃ expected, facts.constant? second = some expected ∧
          Peephole.classAgrees facts (facts.pointer (.box box)) expected = .ok true) ∨
      (op.opcode = .guardClass ∨ op.opcode = .guardNonnullClass) ∧
        earlier.opcode = .guardNonnull ∧ (facts.pointer (.box box)).knownClass = none ∧
        ((facts.resolve second).const?.bind Const.address?).isSome = true)

theorem operationAt_ensures {position : Nat} {post : Operation → Prop}
    (read : ∀ earlier, facts.output[position]? = some earlier → post earlier) :
    EnsuresValue excuse (facts.operationAt position) post := by
  unfold operationAt
  split
  · exact read _ ‹_›
  · exact trivial

/-- What is learned from a guard that is appended: nothing, that its operand is an expected
constant, after what a condition shows, or something about a reference that remembers it. -/
inductive LearnedFrom (op : Operation) (before : Facts) : Facts → Prop where
  | nothing : LearnedFrom op before (before.afterEmit op)
  | constant {source : Value} {literal : Const} {facts : Facts} : op.args[0]? = some source →
      before.Expects op literal →
      (facts = before.afterEmit op ∨ ∃ truth, literal = .truth truth ∧
        narrowCondition (before.resolve source) truth (before.afterEmit op) = .ok () facts) →
          LearnedFrom op before (facts.makeConstant (before.resolve source) literal)
  | pointer {learn : PointerFact → PointerFact} {source : Value} : op.args[0]? = some source →
      op.opcode ∈ [.guardNonnull, .guardClass, .guardNonnullClass] →
      (∀ fact, (learn fact).lastGuard = fact.lastGuard) →
        LearnedFrom op before (before.afterPointerGuard op source learn)

theorem LearnedFrom.output (learned : LearnedFrom op before facts) :
    facts.output = before.output.push (before.resolveOperation op) := by
  cases learned with
  | nothing => exact output_append _ _ _
  | constant _ _ narrowed =>
    rw [(learns_makeConstant _ _ _).output]
    rcases narrowed with rfl | ⟨truth, _, ran⟩
    · exact output_append _ _ _
    · rw [((narrowCondition_learns _ truth _).of_ok ran).output]
      exact output_append _ _ _
  | pointer _ _ _ =>
    rw [afterPointerGuard, updatePointer_eq]
    exact output_append _ _ _

/-- What is learned from a guard that went into an earlier one: something about its reference, which
remembers no other guard for it, and maybe that it is the expected constant. -/
inductive LearnedInto (op : Operation) (before base : Facts) (box : Box) (literal : Const) :
    Facts → Prop where
  | pointer {update : PointerFact → PointerFact} :
      (∀ fact position, (update fact).lastGuard = some position →
        fact.lastGuard = some position ∧ op.opcode ≠ .guardValue) →
          LearnedInto op before base box literal (base.updatePointer (.box box) update)
  | constant {facts : Facts} : box.type.isRef = true → before.Expects op literal →
      LearnedInto op before base box literal facts →
        LearnedInto op before base box literal (facts.makeConstant (.box box) literal)

theorem LearnedInto.output {base : Facts} {box : Box} {literal : Const}
    (learned : LearnedInto op before base box literal facts) : facts.output = base.output := by
  induction learned with
  | pointer _ => rw [updatePointer_eq]
  | constant _ _ _ ih => exact (learns_makeConstant _ _ _).output.trans ih

/-- What is known may be relied on at a guard: a guard for a constant asks for no description of
the heap where nothing is known about references. -/
structure Trusted (heap : Heap) (facts : Facts) (op : Operation) : Prop where
  coherent : facts.Coherent
  isVoid : op.result = none
  described : op.opcode ∈ [.guardTrue, .guardFalse, .guardValue] ∧ facts.NoPointers ∨
    facts.target.Describes heap

theorem Trusted.describes (trusted : facts.Trusted heap op)
    (other : op.opcode ∉ [.guardTrue, .guardFalse, .guardValue]) : facts.target.Describes heap :=
  trusted.described.resolve_left fun isConstant => other isConstant.1

/-- The facts may settle a guard on a reference, which goes into no earlier one. -/
structure Isolates (facts : Facts) (op : Operation) : Prop where
  isGuard : op.isGuard = true
  checked : op.opcode.isCheckedGuard = true
  other : op.opcode ∉ [.guardTrue, .guardFalse, .guardValue]
  alone : ¬ facts.Absorbs op

/-- Where the walk stops at a guard, that passes in no run, or it asks about an object that the
target does not list. -/
def Judges (heap : Heap) (facts : Facts) (op : Operation) : Prop :=
  facts.Trusted heap op →
    facts.Refutes heap op ∨ op.opcode = .guardIsObject ∧ facts.Unlisted heap op

end Facts

namespace Peephole

open Facts

variable {facts : Facts} {expected : Const} {source : Value}

/-- What may become of a guard. -/
inductive GuardStep (op : Operation) (walk : Peephole) : Peephole → Prop where
  | removed : walk.facts.Settles op → ¬ walk.facts.Absorbs op → GuardStep op walk
      { walk with stats := { walk.stats with guardsRemoved := walk.stats.guardsRemoved + 1 } }
  | kept {facts : Facts} : ¬ walk.facts.Absorbs op → LearnedFrom op walk.facts facts →
      GuardStep op walk { walk with facts := facts }
  | merged {source argument : Value} {box : Box} {position : Nat} {earlier : Operation}
      {opcode : Opcode} {literal : Const} {facts : Facts} :
      walk.facts.Absorbs op → op.args[0]? = some source → walk.facts.resolve source = .box box →
      (walk.facts.pointer (.box box)).lastGuard = some position →
      walk.facts.output[position]? = some earlier → earlier.resume ≠ .atPosition →
      earlier.args[0]? = some argument →
      opcode = .guardNonnullClass ∨ opcode = .guardValue ∧ op.opcode = .guardValue →
      LearnedInto op walk.facts (walk.facts.strengthen position earlier opcode argument literal) box
        literal facts →
        GuardStep op walk { walk with
          facts := facts
          stats := { walk.stats with guardsMerged := walk.stats.guardsMerged + 1 } }

/-- A guard was handled, soundly if the facts may be trusted. -/
structure Handles (heap : Heap) (op : Operation) (walk after : Peephole) : Prop where
  step : GuardStep op walk after
  handled : walk.facts.Trusted heap op → Handled heap op walk.facts after.facts

/-- The work handles the guard, or the facts judge it. -/
abbrev IsHandledBy (heap : Heap) (op : Operation) (walk : Peephole) (work : PeepholeM Unit) : Prop :=
  Ensures (walk.facts.Judges heap op) work walk fun _ after => Handles heap op walk after

theorem emit_guard (isGuard : op.isGuard) (walk : Peephole) :
    Ensures excuse (emit op) walk fun _ after =>
      after = { walk with facts := walk.facts.afterEmit op } := by
  have isPlain : isReusable (walk.facts.resolveOperation op) = false ∧
      walk.facts.resultInterval (walk.facts.resolveOperation op) = .ok .unbounded := by
    unfold isReusable resultInterval
    rw [show (walk.facts.resolveOperation op).opcode = op.opcode from rfl]
    revert isGuard
    unfold isGuard
    cases op.opcode <;> intro isGuard <;> first | exact ⟨rfl, rfl⟩ | cases isGuard
  have appends : walk.facts.emission (walk.facts.resolveOperation op) =
      .ok (.append .unbounded) := by
    unfold emission reuse?
    rw [isPlain.1, isPlain.2]
    cases (walk.facts.resolveOperation op).result with
    | none => rfl
    | some result => cases isInt : result.type.isInt <;> simp [isInt]
  have emits : Ensures excuse (Facts.emit op) walk.facts fun _ after =>
      after = walk.facts.afterEmit op := bind_get (bind_lift (appends ▸ rfl))
  exact .bind_onFacts emits fun _ _ emitted => emitted ▸ rfl

/-- Only guards for a constant or for a class go into earlier ones. -/
theorem not_absorbs (other : op.opcode ∉ [.guardValue, .guardClass, .guardNonnullClass]) :
    ¬ facts.Absorbs op := by
  unfold Facts.Absorbs
  grind

theorem isolates (opcode : op.opcode ∈ [.guardIsNull, .guardNonnull, .guardIsObject, .guardGcType,
    .guardSubclass]) : facts.Isolates op := by
  simp only [mem_cons, not_mem_nil, or_false] at opcode
  refine ⟨?_, ?_, ?_, not_absorbs ?_⟩ <;> (try unfold isGuard) <;>
    rcases opcode with opcode | opcode | opcode | opcode | opcode <;> rw [opcode] <;> decide

/-! ## Guards for a constant -/

theorem handles_emit (isGuard : op.isGuard) (alone : ¬ walk.facts.Absorbs op) :
    Ensures excuse (emit op) walk fun _ after => Handles heap op walk after := by
  refine (emit_guard isGuard walk).weaken fun _ _ emitted => ?_
  subst emitted
  exact ⟨.kept alone .nothing, fun trusted => handled_of_learns trusted.coherent trusted.isVoid
    (Learns.refl _) fun _ holds _ => holds.afterEmit trusted.isVoid⟩

theorem handles_removed (settles : walk.facts.Settles op) (alone : ¬ walk.facts.Absorbs op)
    (passes : walk.facts.Trusted heap op → walk.facts.Passes heap op) :
    Ensures excuse countGuardRemoved walk fun _ after => Handles heap op walk after :=
  ⟨.removed settles alone, fun trusted => handled_of_passes trusted.coherent (passes trusted)⟩

theorem handles_settled (isolated : walk.facts.Isolates op)
    (passes : ∀ heap, walk.facts.target.Describes heap → walk.facts.Passes heap op) :
    Ensures excuse countGuardRemoved walk fun _ after => Handles heap op walk after :=
  handles_removed ⟨passes, .inl isolated.checked⟩ isolated.alone fun trusted =>
    passes heap (trusted.describes isolated.other)

theorem narrowCondition_ensures {condition : Value} {truth : Bool}
    (isTrue : ∀ valuation, walk.facts.Holds heap valuation →
      op.checked heap valuation = some true → valuation.value condition = some (.truth truth)) :
    Ensures (walk.facts.Judges heap op) (narrowCondition condition truth) (walk.facts.afterEmit op)
      fun _ after => narrowCondition condition truth (walk.facts.afterEmit op) = .ok () after ∧
        ∀ valuation, walk.facts.Trusted heap op ∧ walk.facts.Holds heap valuation ∧
          op.checked heap valuation = some true → after.Holds heap valuation := by
  refine (of_ran fun _ _ ran => ran).and ((forall_of_each ?_).excuse_by ?_)
  · rintro valuation ⟨trusted, holds, passes⟩
    exact (holds.afterEmit trusted.isVoid).narrowCondition (isTrue valuation holds passes)
  · exact fun refuted trusted => .inl fun valuation both => refuted valuation ⟨trusted, both⟩

theorem handles_guardConstant (isGuard : op.isGuard) (expects : walk.facts.Expects op expected)
    (compares : ∀ heap, Compares heap walk.facts op expected)
    (isTruth : ∀ truth, op.opcode = (if truth then .guardTrue else .guardFalse) →
      expected = .truth truth)
    (checked : op.opcode.isCheckedGuard) (alone : ¬ walk.facts.Absorbs op) :
    IsHandledBy heap op walk (guardConstant op expected) := by
  refine .bind_currentFacts_arg fun source first => ?_
  have valueIs : ∀ valuation, walk.facts.Holds heap valuation →
      op.checked heap valuation = some true →
        valuation.value (walk.facts.resolve source) = some expected := by
    intro valuation holds passes
    rw [holds.value_resolve]
    exact (compares heap).value_eq first holds passes
  dsimp only
  split
  next known isKnown =>
    split
    next same =>
      have passes heap := passes_of_constant? (compares heap) first (same ▸ isKnown)
      exact handles_removed ⟨fun heap _ => passes heap, .inl checked⟩ alone fun _ => passes heap
    rename_i apart
    refine .contradict fun _ => .inl ?_
    rintro valuation ⟨holds, passes⟩
    have agree := valueIs valuation holds passes
    rw [holds.value_of_constant? isKnown] at agree
    exact apart (some.inj agree)
  refine (emit_guard isGuard walk).bind fun _ after emitted => ?_
  subst emitted
  -- Whatever the guard learns about its condition, the run in which it passes has it.
  have finish (facts : Facts) (learns : (walk.facts.afterEmit op).Learns facts)
      (narrowed : facts = walk.facts.afterEmit op ∨ ∃ truth, expected = .truth truth ∧
        narrowCondition (walk.facts.resolve source) truth (walk.facts.afterEmit op) = .ok () facts)
      (holds : ∀ valuation, walk.facts.Trusted heap op ∧ walk.facts.Holds heap valuation ∧
        op.checked heap valuation = some true → facts.Holds heap valuation) :
      Handles heap op walk { walk with
        facts := facts.makeConstant (walk.facts.resolve source) expected } := by
    refine ⟨.kept alone (.constant first expects narrowed), fun trusted => ?_⟩
    refine handled_of_learns trusted.coherent trusted.isVoid
      (learns.trans (learns_makeConstant facts _ expected)) fun valuation before passes => ?_
    exact (holds valuation ⟨trusted, before, passes⟩).makeConstant (valueIs valuation before passes)
  have conditional (truth : Bool) (opcode : op.opcode = if truth then .guardTrue else .guardFalse) :
      Ensures (walk.facts.Judges heap op) (do
        onFacts (narrowCondition (walk.facts.resolve source) truth)
        updateFacts fun facts => facts.makeConstant (walk.facts.resolve source) expected)
        { walk with facts := walk.facts.afterEmit op } fun _ after => Handles heap op walk after := by
    rw [isTruth truth opcode] at valueIs
    refine .bind_onFacts (narrowCondition_ensures valueIs) ?_
    rintro _ facts ⟨ran, holds⟩
    exact finish facts ((narrowCondition_learns _ truth _).of_ok ran)
      (.inr ⟨truth, isTruth truth opcode, ran⟩) holds
  split
  · exact conditional true ‹_›
  · exact conditional false ‹_›
  · exact finish _ (Learns.refl _) (.inl rfl) fun valuation trusted =>
      trusted.2.1.afterEmit trusted.1.isVoid

theorem handles_guardTruth (truth : Bool)
    (opcode : op.opcode = if truth then .guardTrue else .guardFalse) :
    IsHandledBy heap op walk (guardConstant op (.truth truth)) := by
  refine handles_guardConstant ?_ (.inl ⟨truth, rfl⟩)
    (fun heap => compares_guardTruth truth opcode) (fun other same => ?_) ?_ (not_absorbs ?_)
  · rw [isGuard, opcode]
    cases truth <;> rfl
  · cases truth <;> cases other <;> first | rfl | cases opcode.symm.trans same
  · rw [opcode]
    cases truth <;> rfl
  · rw [opcode]
    cases truth <;> decide

/-- The guard at a position becomes one for the constant, or it stays and absorbs nothing. -/
theorem handles_mergeIntoValueGuard {second : Value} {box : Box}
    {position : Nat} (opcode : op.opcode = .guardValue) (first : op.args[0]? = some source)
    (isSecond : op.args[1]? = some second) (known : walk.facts.constant? second = some expected)
    (resolved : walk.facts.resolve source = .box box) (isRef : box.type.isRef)
    (last : (walk.facts.pointer (.box box)).lastGuard = some position) :
    Ensures (walk.facts.Judges heap op)
      (mergeIntoValueGuard (.box box) (walk.facts.pointer (.box box)) position expected) walk
      fun done after => if done then Handles heap op walk
        { after with facts := after.facts.makeConstant (.box box) expected }
      else after = walk ∧ ¬ walk.facts.Absorbs op := by
  have compares : Compares heap walk.facts op expected := compares_guardValue opcode isSecond known
  -- Where the facts are coherent, the box stands for itself, and a guard has established them.
  have established (trusted : walk.facts.Trusted heap op) :
      walk.facts.pointer (.box box) = walk.facts.pointers.getD box {} ∧
        (walk.facts.pointers.getD box {}).lastGuard = some position ∧
        walk.facts.pointers[box]? = some (walk.facts.pointers.getD box {}) ∧
        walk.facts.target.Describes heap := by
    have itself := pointer_of_box (trusted.coherent.resolve_box resolved)
    rw [itself] at last
    have isKnown := (trusted.coherent.remembered_getD last).1
    refine ⟨itself, last, isKnown, trusted.described.resolve_left fun none => ?_⟩
    cases (none.2 box).symm.trans isKnown
  refine .bind_currentFacts ?_
  split
  next isNull =>
    refine .contradict fun trusted => .inl ?_
    rintro valuation ⟨holds, passes⟩
    obtain ⟨_, remembers, isKnown, _⟩ := established trusted
    obtain ⟨_, guard, _, establishes⟩ := trusted.coherent.remembered_getD remembers
    obtain ⟨address, rfl, _, fact⟩ := compares.reference first resolved isKnown holds passes
    exact fact.nonnull establishes.nonnull (by simpa [Const.isNonnull] using isNull)
  rename_i nonnull
  have nonnull : expected.isNonnull = true := by simpa using nonnull
  refine .bind_lift ((ensuresValue_classAgrees ?_).and_eq.weaken fun agrees agreed => ?_)
  · intro address vtable other isAddress listed isKnown apart trusted
    refine .inl ?_
    rintro valuation ⟨holds, passes⟩
    obtain ⟨itself, _, entry, describes⟩ := established trusted
    rw [itself] at isKnown
    obtain ⟨reference, rfl, _, fact⟩ := compares.reference first resolved entry holds passes
    cases isAddress
    have classIs := fact.knownClass other isKnown
    rw [describes.classOf listed] at classIs
    exact apart (some.inj classIs)
  obtain ⟨isAgreed, agreement⟩ := agreed
  split
  · refine ⟨rfl, fun absorbs => ?_⟩
    unfold Facts.Absorbs at absorbs
    grind
  refine .bind_lift (operationAt_ensures fun earlier found => ?_)
  split
  · refine ⟨rfl, fun absorbs => ?_⟩
    unfold Facts.Absorbs at absorbs
    grind
  rename_i isTrue movable
  obtain rfl : agrees = true := by simpa using isTrue
  refine .bind_arg fun argument isArgument => ?_
  obtain ⟨inside, _⟩ := Array.getElem?_eq_some_iff.mp found
  refine .bind_lift ?_
  rw [replaceOperation, if_pos inside]
  refine ⟨.merged ⟨source, second, box, position, earlier, first, isSecond, resolved, last, found,
    movable, .inl ⟨opcode, isRef, expected, known, isAgreed⟩⟩ first resolved last found movable
    isArgument (.inr ⟨rfl, opcode⟩) (.constant isRef (.inr (.inr ?_)) (.pointer ?_)),
    fun trusted => ?_⟩
  · exact ⟨second, mem_of_getElem? isSecond, known⟩
  · exact fun _ _ isLast => absurd isLast (not_mem_none _)
  obtain ⟨itself, remembers, _, describes⟩ := established trusted
  rw [itself] at agreement
  exact handled_of_valueMerge trusted.coherent describes first compares resolved remembers found
    isArgument nonnull (agreement rfl)

theorem handles_guardValue (opcode : op.opcode = .guardValue) :
    IsHandledBy heap op walk (guardValue op) := by
  have isGuard : op.isGuard = true := by rw [isGuard, opcode]; rfl
  refine .bind_currentFacts_arg fun source first => ?_
  refine .bind_arg fun second isSecond => ?_
  dsimp only
  split
  · refine handles_emit isGuard fun absorbs => ?_
    unfold Facts.Absorbs at absorbs
    grind
  rename_i expected known
  have constant (alone : ¬ walk.facts.Absorbs op) :
      IsHandledBy heap op walk (guardConstant op expected) := by
    refine handles_guardConstant isGuard (.inr (.inr ⟨second, mem_of_getElem? isSecond, known⟩))
      (fun heap => compares_guardValue opcode isSecond known) (fun truth same => ?_)
      (opcode ▸ rfl) alone
    cases truth <;> cases opcode.symm.trans same
  split
  next position isBox last =>
    obtain ⟨isRef, notConst⟩ := Bool.and_eq_true_iff.mp isBox
    obtain ⟨box, resolved⟩ : ∃ box, walk.facts.resolve source = .box box :=
      Value.exists_box_of_not_isConst (by simpa using notConst)
    rw [resolved] at isRef last ⊢
    refine (handles_mergeIntoValueGuard opcode first isSecond known resolved isRef last).bind
      fun done after outcome => ?_
    split
    next isDone =>
      rw [if_pos isDone] at outcome
      exact outcome
    next notDone =>
      rw [if_neg notDone] at outcome
      obtain ⟨rfl, alone⟩ := outcome
      exact constant alone
  · refine constant fun absorbs => ?_
    unfold Facts.Absorbs at absorbs
    grind [Value.type, Value.isConst]

/-! ## Guards on references -/

theorem handles_emitPointerGuard {learn : PointerFact → PointerFact}
    (first : op.args[0]? = some source)
    (onReference : op.opcode ∈ [.guardNonnull, .guardClass, .guardNonnullClass])
    (alone : ¬ walk.facts.Absorbs op)
    (lastGuard : ∀ fact, (learn fact).lastGuard = fact.lastGuard)
    (new : ∀ box, walk.facts.resolve source = .box box →
      (walk.facts.resolveOperation op).Establishes box (learn (walk.facts.pointers.getD box {})))
    (old : walk.facts.Coherent → ∀ box (guard : Operation), walk.facts.resolve source = .box box →
      guard.Establishes box (walk.facts.pointers.getD box {}) →
        guard.Establishes box (learn (walk.facts.pointers.getD box {})))
    (learned : walk.facts.target.Describes heap → ∀ valuation, walk.facts.Holds heap valuation →
      op.checked heap valuation = some true →
        ∃ address, valuation.value (walk.facts.resolve source) = some (.ref address) ∧
          ∀ fact : PointerFact, fact.Holds heap address → (learn fact).Holds heap address) :
    Ensures excuse (emitPointerGuard op (walk.facts.resolve source) learn) walk fun _ after =>
      Handles heap op walk after := by
  have ⟨isGuard, other⟩ : op.isGuard = true ∧
      op.opcode ∉ [.guardTrue, .guardFalse, .guardValue] := by
    unfold isGuard
    simp only [mem_cons, not_mem_nil, or_false] at onReference
    rcases onReference with opcode | opcode | opcode <;> rw [opcode] <;> decide
  refine .bind_currentFacts ((emit_guard isGuard walk).bind fun _ after emitted => ?_)
  subst emitted
  exact ⟨.kept alone (.pointer first onReference lastGuard), fun trusted =>
    handled_of_pointerGuard trusted.coherent trusted.isVoid lastGuard new (old trusted.coherent)
      (learned (trusted.describes other))⟩

theorem handles_guardIsNull (opcode : op.opcode = .guardIsNull) :
    IsHandledBy heap op walk (guardIsNull op) := by
  have isolated : walk.facts.Isolates op := isolates (by simp [opcode])
  have checks : op.opcode.check heap = fun args =>
      Opcode.onReference args fun address => some (address == 0) := by rw [opcode]; rfl
  refine .bind_currentFacts_arg fun source first => ?_
  dsimp only
  split
  · exact handles_settled isolated fun heap describes =>
      passes_guardIsNull describes first opcode ‹_›
  split
  next isNonnull =>
    refine .contradict fun trusted => .inl ?_
    rintro valuation ⟨holds, passes⟩
    obtain ⟨address, _, fact, isZero⟩ :=
      holds.reference_of_checked (trusted.describes isolated.other) checks first passes
    exact fact.ne_zero isNonnull (beq_iff_eq.mp isZero.symm)
  · refine (emit_guard isolated.isGuard walk).bind fun _ after emitted => ?_
    subst emitted
    refine ⟨.kept isolated.alone (.constant first (.inr (.inl rfl)) (.inl rfl)), fun trusted => ?_⟩
    refine handled_of_learns trusted.coherent trusted.isVoid (learns_makeConstant _ _ _) ?_
    intro valuation holds passes
    obtain ⟨address, valueIs, _, isZero⟩ :=
      holds.reference_of_checked (trusted.describes isolated.other) checks first passes
    rw [beq_iff_eq.mp isZero.symm] at valueIs
    exact (holds.afterEmit trusted.isVoid).makeConstant valueIs

theorem handles_guardNonnull (opcode : op.opcode = .guardNonnull) :
    IsHandledBy heap op walk (guardNonnull op) := by
  have isolated : walk.facts.Isolates op := isolates (by simp [opcode])
  have checks : op.opcode.check heap = fun args =>
      Opcode.onReference args fun address => some (address != 0) := by rw [opcode]; rfl
  refine .bind_currentFacts_arg fun source first => ?_
  dsimp only
  split
  · exact handles_settled isolated fun heap describes =>
      passes_guardNonnull describes first opcode ‹_›
  split
  next isNull =>
    refine .contradict fun trusted => .inl ?_
    rintro valuation ⟨holds, passes⟩
    obtain ⟨address, _, fact, nonzero⟩ :=
      holds.reference_of_checked (trusted.describes isolated.other) checks first passes
    exact bne_iff_ne.mp nonzero.symm (fact.eq_zero isNull)
  · refine handles_emitPointerGuard first (by simp [opcode]) isolated.alone (fun _ => rfl) ?_ ?_ ?_
    · intro box resolved
      refine ⟨?_, rfl, .inl opcode⟩
      rw [resolveOperation_getElem? first, resolved]
    · intro _ box guard _ establishes
      exact establishes.withNonnull
    · intro describes valuation holds passes
      obtain ⟨address, valueIs, _, nonzero⟩ :=
        holds.reference_of_checked describes checks first passes
      exact ⟨address, valueIs, fun fact factHolds =>
        factHolds.withNonnull (bne_iff_ne.mp nonzero.symm)⟩

theorem handles_guardIsObject (opcode : op.opcode = .guardIsObject) :
    IsHandledBy heap op walk (guardIsObject op) := by
  have isolated : walk.facts.Isolates op := isolates (by simp [opcode])
  have checks : op.opcode.check heap = fun args =>
      Opcode.onReference args fun address => some (heap.classOf address).isSome := by
    rw [opcode]; rfl
  refine .bind_currentFacts_arg fun source first => ?_
  dsimp only
  split
  next literal resolved =>
    -- A constant that passes is a reference to an instance.
    have passing (trusted : walk.facts.Trusted heap op) {valuation : Valuation}
        (holds : walk.facts.Holds heap valuation) (passes : op.checked heap valuation = some true) :
        ∃ address, literal = .ref address ∧ heap.classOf address ≠ none := by
      obtain ⟨address, valueIs, _, isSome⟩ :=
        holds.reference_of_checked (trusted.describes isolated.other) checks first passes
      rw [resolved] at valueIs
      exact ⟨address, some.inj valueIs, isSome_iff_ne_none.mp isSome.symm⟩
    split
    next isNull =>
      refine .contradict fun trusted => .inl ?_
      rintro valuation ⟨holds, passes⟩
      obtain ⟨address, rfl, isObject⟩ := passing trusted holds passes
      have isZero : address = 0 := isNull
      exact isObject (isZero ▸ heap.classOf_null)
    split
    · exact handles_settled isolated fun heap describes =>
        passes_guardIsObject describes first opcode (.inr ⟨literal, resolved, ‹_›⟩)
    rename_i notObject
    have unlisted : walk.facts.target.classOf? (literal.address?.getD 0) = none := by
      simpa [Target.isObject] using notObject
    -- A listed constant is judged rightly, and a word is no reference to ask about.
    refine .contradict fun trusted => ?_
    by_cases isObject : ∃ address, literal = .ref address ∧ heap.classOf address ≠ none
    · obtain ⟨address, rfl, isObject⟩ := isObject
      exact .inr ⟨opcode, source, address, first, resolved, unlisted, isObject⟩
    · exact .inl fun valuation both => isObject (passing trusted both.1 both.2)
  next box resolved =>
    split
    · exact handles_settled isolated fun heap describes =>
        passes_guardIsObject describes first opcode (.inl (resolved ▸ ‹_›))
    rename_i notObject
    split
    next isPrecise =>
      refine .contradict fun trusted => .inl ?_
      rintro valuation ⟨holds, passes⟩
      obtain ⟨address, _, fact, isSome⟩ :=
        holds.reference_of_checked (trusted.describes isolated.other) checks first passes
      rw [resolved] at fact
      rw [← fact.isPrecise isPrecise] at isSome
      exact notObject isSome.symm
    · exact handles_emit isolated.isGuard isolated.alone

theorem handles_guardGcType (opcode : op.opcode = .guardGcType) :
    IsHandledBy heap op walk (guardGcType op) := by
  have isolated : walk.facts.Isolates op := isolates (by simp [opcode])
  refine .bind_currentFacts_arg fun source first => ?_
  refine .bind_arg fun second isSecond => ?_
  split
  · exact handles_emit isolated.isGuard isolated.alone
  rename_i expected isExpected
  split
  · exact handles_emit isolated.isGuard isolated.alone
  rename_i known isKnown
  split
  next same =>
    refine handles_settled isolated
      fun heap describes valuation verdict holds checked => ?_
    rw [verdict_guardGcType describes first opcode isSecond isExpected isKnown holds checked]
    exact beq_iff_eq.mpr same
  next apart =>
    refine .contradict fun trusted => .inl ?_
    rintro valuation ⟨holds, passes⟩
    exact apart (beq_iff_eq.mp (verdict_guardGcType (trusted.describes isolated.other) first opcode
      isSecond isExpected isKnown holds passes).symm)

theorem handles_guardSubclass (opcode : op.opcode = .guardSubclass) :
    IsHandledBy heap op walk (guardSubclass op) := by
  have isolated : walk.facts.Isolates op := isolates (by simp [opcode])
  refine .bind_currentFacts_arg fun source first => ?_
  refine .bind_arg fun second isSecond => ?_
  dsimp only
  split
  · exact handles_emit isolated.isGuard isolated.alone
  rename_i expected isExpected
  split
  next literal resolved =>
    have decides {heap : Heap} (describes : walk.facts.target.Describes heap) {compared : Bool}
        (isCompared : (do
          walk.facts.target.isSubclass? (← walk.facts.target.classOf? (← literal.address?))
            expected) = some compared)
        {valuation : Valuation} {verdict : Bool} (holds : walk.facts.Holds heap valuation)
        (checked : op.checked heap valuation = some verdict) : verdict = compared := by
      obtain ⟨listed, isAddress, isCompared⟩ := bind_eq_some_iff.mp isCompared
      obtain ⟨vtable, classIs, isCompared⟩ := bind_eq_some_iff.mp isCompared
      exact verdict_guardSubclass describes first opcode isSecond isExpected
        (.inr ⟨literal, listed, resolved, isAddress, classIs⟩) isCompared holds checked
    split
    · exact handles_settled isolated fun heap describes valuation verdict =>
        decides describes ‹_›
    · refine .contradict fun trusted => .inl ?_
      rintro valuation ⟨holds, passes⟩
      cases decides (trusted.describes isolated.other) ‹_› holds passes
    · exact handles_emit isolated.isGuard isolated.alone
  next box resolved =>
    split
    next isSubclass =>
      have isCompared := beq_iff_eq.mp (Bool.and_eq_true_iff.mp isSubclass).2
      obtain ⟨vtable, known, isCompared⟩ := bind_eq_some_iff.mp isCompared
      exact handles_settled isolated fun heap describes valuation verdict =>
        verdict_guardSubclass describes first opcode isSecond isExpected
          (.inl (resolved ▸ known)) isCompared
    · exact handles_emit isolated.isGuard isolated.alone

theorem handles_guardClass (opcode : op.opcode = .guardClass ∨ op.opcode = .guardNonnullClass) :
    IsHandledBy heap op walk (guardClass op) := by
  have kinds : op.isGuard = true ∧ op.opcode.isCheckedGuard = true ∧
      op.opcode ∉ [.guardTrue, .guardFalse, .guardValue] := by
    unfold isGuard
    rcases opcode with opcode | opcode <;> rw [opcode] <;> decide
  obtain ⟨isGuard, checked, other⟩ := kinds
  refine .bind_currentFacts_arg fun source first => ?_
  refine .bind_arg fun second isSecond => ?_
  dsimp only
  split
  · refine handles_emit isGuard fun absorbs => ?_
    unfold Facts.Absorbs at absorbs
    grind
  rename_i expected isExpected
  have asks {heap : Heap} (describes : walk.facts.target.Describes heap) :
      AsksClass heap walk.facts op (walk.facts.resolve source) expected :=
    asksClass_of_opcode describes (opcode.imp_right .inl) first isSecond
      (address?_of_resolve isExpected)
  split
  next known isKnown =>
    split
    next same =>
      refine handles_settled ⟨isGuard, checked, other, fun absorbs => ?_⟩ fun heap describes =>
        (asks describes).passes (same ▸ isKnown)
      unfold Facts.Absorbs at absorbs
      grind
    next apart =>
      exact .contradict fun trusted =>
        .inl ((asks (trusted.describes other)).refutes isKnown apart)
  rename_i unknown
  split
  next isConst =>
    refine handles_emit isGuard fun absorbs => ?_
    unfold Facts.Absorbs at absorbs
    grind [Value.isConst]
  rename_i notConst
  obtain ⟨box, resolved⟩ := Value.exists_box_of_not_isConst notConst
  obtain ⟨literal, isConst, isAddress⟩ := bind_eq_some_iff.mp isExpected
  have classArg := Value.eq_const_of_const? isConst
  rw [resolved] at unknown asks
  refine .bind_lift
    ((ensuresValue_earlierNonnullGuard? walk.facts _).weaken fun earlier? isEarlier => ?_)
  split
  next position earlier =>
    rw [resolved] at isEarlier
    obtain ⟨last, found, wasNonnull, movable⟩ := (isEarlier position earlier).mp rfl
    refine .bind_arg fun argument isArgument => ?_
    obtain ⟨inside, _⟩ := Array.getElem?_eq_some_iff.mp found
    refine .bind_lift ?_
    rw [classArg, replaceOperation, if_pos inside, resolved]
    have absorbs : walk.facts.Absorbs op := ⟨source, second, box, position, earlier, first,
      isSecond, resolved, last, found, movable,
      .inr ⟨opcode, wasNonnull, unknown, isExpected ▸ rfl⟩⟩
    refine ⟨@GuardStep.merged op walk source argument box position earlier .guardNonnullClass
      literal _ absorbs first resolved last found movable isArgument (.inl rfl)
      (@LearnedInto.pointer _ _ _ _ _ (PointerFact.withClass · expected) fun _ _ isLast =>
        ⟨isLast, by rcases opcode with opcode | opcode <;> simp [opcode]⟩),
      fun trusted => ?_⟩
    have itself := trusted.coherent.resolve_box resolved
    rw [pointer_of_box itself] at last
    exact handled_of_classMerge trusted.coherent itself last found isArgument wasNonnull
      isAddress (asks (trusted.describes other))
  next noEarlier =>
    refine handles_emitPointerGuard first ?_ (fun absorbs => ?_) (fun _ => rfl) ?_ ?_
      fun describes _ holds passes => ?_
    · simp [opcode]
    · unfold Facts.Absorbs at absorbs
      grind
    · intro other isOther
      cases resolved.symm.trans isOther
      refine ⟨?_, rfl, .inr ⟨opcode, literal, expected, ?_, isAddress, rfl⟩⟩
      · rw [resolveOperation_getElem? first, resolved]
      · rw [resolveOperation_getElem? isSecond, classArg]
    · intro coherent other guard isOther establishes
      cases resolved.symm.trans isOther
      rw [pointer_of_box (coherent.resolve_box resolved)] at unknown
      exact establishes.withClass unknown expected
    · rw [resolved]
      exact (asks describes).withClass holds passes

theorem handles_guardNonnullClass (opcode : op.opcode = .guardNonnullClass) :
    IsHandledBy heap op walk (guardNonnullClass op) := by
  refine .bind_currentFacts_arg fun source first => ?_
  split
  next isNull =>
    refine .contradict fun trusted => .inl ?_
    rintro valuation ⟨holds, passes⟩
    obtain ⟨value, address, _, _, vtable, isFirst, valueIs, _, _, _, isInstance⟩ :=
      class_of_checked (fun address vtable => heap.classOf address == some vtable)
        (check_class (.inr (.inl opcode))) passes
    cases first.symm.trans isFirst
    exact heap.ne_null_of_classOf (beq_iff_eq.mp isInstance.symm)
      ((holds.pointer (trusted.describes (by simp [opcode])) valueIs).eq_zero isNull)
  · exact handles_guardClass (.inr opcode)

/-! ## All guards -/

theorem handles_guardNoException (opcode : op.opcode = .guardNoException) :
    Ensures excuse (guardNoException op) walk fun _ after => Handles heap op walk after := by
  have alone : ¬ walk.facts.Absorbs op := not_absorbs (by simp [opcode])
  have passes heap : walk.facts.Passes heap op := by
    intro valuation verdict _ checked
    obtain ⟨literals, _, decided⟩ := bind_eq_some_iff.mp checked
    rw [opcode] at decided
    cases decided
  refine .bind_currentFacts ?_
  split
  · exact handles_removed ⟨fun heap _ => passes heap, .inr ⟨opcode, ‹_›⟩⟩ alone fun _ =>
      passes heap
  · exact handles_emit (by rw [isGuard, opcode]; rfl) alone

theorem simplifyComparison?_eq_none (noInverse : op.opcode.inverse? = none)
    (noReflex : op.opcode.reflex? = none) : facts.simplifyComparison? op = none := by
  unfold simplifyComparison? decidedInverse?
  rw [noInverse, noReflex]
  split <;> rfl

theorem handles_step (isGuard : op.isGuard) : IsHandledBy heap op walk (step op) := by
  have noComparison : op.opcode.inverse? = none ∧ op.opcode.reflex? = none := by
    revert isGuard
    unfold Operation.isGuard
    cases op.opcode <;> intro isGuard <;> first | exact ⟨rfl, rfl⟩ | cases isGuard
  have plain (other : op.opcode ∉ [.guardValue, .guardClass, .guardNonnullClass]) :
      IsHandledBy heap op walk (do perform (← liftM (walk.facts.simplify op))) := by
    have keeps : walk.facts.simplify op = .ok (.keep op false) := by
      revert isGuard
      unfold simplify simplifyResult Operation.isGuard
      cases op.opcode <;> intro isGuard <;> first
        | cases op.result <;> rfl
        | cases isGuard
    rw [keeps]
    exact handles_emit isGuard (not_absorbs other)
  refine .bind_currentFacts ?_
  rw [simplifyComparison?_eq_none noComparison.1 noComparison.2]
  cases opcode : op.opcode with
  | guardTrue => exact handles_guardTruth true opcode
  | guardFalse => exact handles_guardTruth false opcode
  | guardValue => exact handles_guardValue opcode
  | guardIsNull => exact handles_guardIsNull opcode
  | guardNonnull => exact handles_guardNonnull opcode
  | guardIsObject => exact handles_guardIsObject opcode
  | guardGcType => exact handles_guardGcType opcode
  | guardSubclass => exact handles_guardSubclass opcode
  | guardClass => exact handles_guardClass (.inl opcode)
  | guardNonnullClass => exact handles_guardNonnullClass opcode
  | guardNoException => exact handles_guardNoException opcode
  | recordExactClass | call | callPure | callLoopInvariant | condCall =>
    rw [Operation.isGuard, opcode] at isGuard
    cases isGuard
  | _ => exact plain (by simp [opcode])

/-- A guard for a constant says nothing about references where nothing was known about them. -/
theorem GuardStep.noPointers (stepped : GuardStep op walk after) (isVoid : op.result = none)
    (opcode : op.opcode ∈ [.guardTrue, .guardFalse, .guardValue])
    (none : walk.facts.NoPointers) : after.facts.NoPointers := by
  have emitted : (walk.facts.afterEmit op).NoPointers := by
    unfold NoPointers
    rw [(grows_afterEmit walk.facts isVoid).pointers]
    exact none
  cases stepped with
  | removed _ _ => exact none
  | kept _ learned =>
    cases learned with
    | nothing => exact emitted
    | constant _ _ narrowed =>
      unfold NoPointers
      rw [(learns_makeConstant _ _ _).pointers]
      rcases narrowed with rfl | ⟨truth, _, ran⟩
      · exact emitted
      · rw [((narrowCondition_learns _ truth _).of_ok ran).pointers]
        exact emitted
    | pointer _ onReference _ =>
      simp only [mem_cons, not_mem_nil, or_false] at opcode onReference
      grind
  | merged _ _ _ last _ _ _ _ _ =>
    obtain ⟨box, fact, entry, _⟩ := exists_entry_of_lastGuard last
    cases (none box).symm.trans entry

theorem guardStep_step (isGuard : op.isGuard) :
    Ensures True (step op) walk fun _ after => GuardStep op walk after :=
  ((@handles_step .empty op walk isGuard).weaken fun _ _ handles => handles.step).excuse_by
    fun _ => trivial

end Peephole

end LinearTrace
