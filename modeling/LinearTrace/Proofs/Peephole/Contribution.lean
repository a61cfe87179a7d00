import LinearTrace.Proofs.Peephole.Walk

/-!
# What an operation contributes to the output

One step appends the operation itself, a cheaper one, or the loads and stores of an array copy, or
it appends nothing; only a merged guard changes what was emitted before.
-/

namespace LinearTrace

open List Option

/-! ## Pure operations -/

/-- Operation codes that are put in the place of another one; only float operations become such. -/
def Opcode.IsCheaper (old other : Opcode) : Prop :=
  other ∈ [.intNeg, .intLeftShift, .intRightShift, .call] ∨
    other ∈ [.floatNeg, .floatMul] ∧ old ∈ [.floatMul, .floatTrueDiv]

/-- What the rules make of an operation: a cheaper one reads operands of the old one and constants,
and a result is given to an operand or to a known result. -/
def Simplified.IsFor (facts : Facts) (op : Operation) : Simplified → Prop
  | .keep other _ => other = op
  | .cheaper other _ => (op.result ≠ none ∨ op.opcode = .floatTrueDiv) ∧ ∃ opcode args,
      other = op.recode opcode args ∧ op.opcode.IsCheaper opcode ∧
        ∀ value ∈ args, value ∈ op.args ∨ ∃ literal, value = .const literal
  | .equals result value => op.result = some result ∧ value ∈ op.args
  | .names result value => op.result = some result ∧
      (value ∈ op.args ∨ ∃ opcode args, facts.known.lookup opcode args = some value)
  | .word result _ => op.result = some result
  | .nothing => op.opcode = .sameAs ∧ op.result = none

namespace Facts

variable {facts : Facts} {op : Operation} {result : Box} {simplified : Simplified}

theorem arg_mem {position : Nat} : EnsuresValue True (op.arg position) (· ∈ op.args) :=
  ensuresValue_arg fun _ => mem_of_getElem?

section

variable (isResult : op.result = some result)

include isResult

theorem isFor_decidedInverse? {inverse : Option Opcode} {args : List Value}
    (found : decidedInverse? facts result inverse args = some simplified) :
    simplified.IsFor facts op := by
  obtain ⟨opcode, _, found⟩ := bind_eq_some_iff.mp found
  obtain ⟨known, _, found⟩ := bind_eq_some_iff.mp found
  dsimp only at found
  split at found
  · cases found
    exact isResult
  split at found
  · cases found
    exact isResult
  · cases found

theorem isFor_cheaper (facts : Facts) {opcode : Opcode} {args : List Value} (reversible : Bool)
    (isCheaper : op.opcode.IsCheaper opcode)
    (reads : ∀ value ∈ args, value ∈ op.args ∨ ∃ literal, value = .const literal) :
    (Simplified.cheaper (op.recode opcode args) reversible).IsFor facts op :=
  ⟨.inl (isResult ▸ some_ne_none _), opcode, args, rfl, isCheaper, reads⟩

theorem isFor_simplifyAnd :
    EnsuresValue True (facts.simplifyAnd op result) (Simplified.IsFor facts op) := by
  refine arg_mem.bind fun left isLeft => arg_mem.bind fun right isRight => ?_
  dsimp only
  split
  · exact isResult
  split
  · exact ⟨isResult, isLeft⟩
  · split
    · exact ⟨isResult, isRight⟩
    · exact rfl

theorem isFor_simplifyZeroOperand :
    EnsuresValue True (facts.simplifyZeroOperand op result) (Simplified.IsFor facts op) := by
  refine arg_mem.bind fun left isLeft => arg_mem.bind fun right isRight => ?_
  split
  · exact ⟨isResult, isRight⟩
  · split
    · exact ⟨isResult, isLeft⟩
    · exact rfl

theorem isFor_simplifySub :
    EnsuresValue True (facts.simplifySub op result) (Simplified.IsFor facts op) := by
  refine arg_mem.bind fun left isLeft => arg_mem.bind fun right isRight => ?_
  split
  · exact ⟨isResult, isLeft⟩
  split
  · exact isFor_cheaper isResult facts true (.inl (by simp)) (by simp [isRight])
  · split
    · exact isResult
    · exact rfl

theorem isFor_shiftForFactor? {factor : Interval} {other : Value} (isArg : other ∈ op.args)
    (found : shiftForFactor? op factor other = some simplified) : simplified.IsFor facts op := by
  obtain ⟨word, _, found⟩ := bind_eq_some_iff.mp found
  split at found
  · cases found
    exact isFor_cheaper isResult facts false (.inl (by simp)) (by simp [isArg, Value.int])
  · cases found

theorem isFor_simplifyMul :
    EnsuresValue True (facts.simplifyMul op result) (Simplified.IsFor facts op) := by
  refine arg_mem.bind fun left isLeft => arg_mem.bind fun right isRight => ?_
  dsimp only
  split
  · exact ⟨isResult, isRight⟩
  split
  · exact ⟨isResult, isLeft⟩
  split
  · exact isResult
  split
  · exact isFor_shiftForFactor? isResult isRight ‹_›
  · exact isFor_shiftForFactor? isResult isLeft ‹_›
  · exact rfl

theorem isFor_simplifyFloorDiv :
    EnsuresValue True (facts.simplifyFloorDiv op result) (Simplified.IsFor facts op) := by
  refine arg_mem.bind fun left isLeft => arg_mem.bind fun right isRight => ?_
  dsimp only
  split
  · exact ⟨isResult, isLeft⟩
  split
  · exact isResult
  split
  · split
    · exact isFor_cheaper isResult facts false (.inl (by simp)) (by simp [isLeft, Value.int])
    · exact rfl
  · exact rfl

theorem isFor_simplifyUintFloorDiv :
    EnsuresValue True (facts.simplifyUintFloorDiv op result) (Simplified.IsFor facts op) := by
  refine arg_mem.bind fun right _ => ?_
  split
  · exact arg_mem.bind fun left isLeft => ⟨isResult, isLeft⟩
  · exact rfl

theorem isFor_simplifyShift :
    EnsuresValue True (facts.simplifyShift op result) (Simplified.IsFor facts op) := by
  refine arg_mem.bind fun right _ => ?_
  split
  · exact arg_mem.bind fun left isLeft => ⟨isResult, isLeft⟩
  refine arg_mem.bind fun left _ => ?_
  split
  · exact isResult
  · exact rfl

theorem isFor_simplifyIsTrue :
    EnsuresValue True (facts.simplifyIsTrue op result) (Simplified.IsFor facts op) := by
  refine arg_mem.bind fun operand isOperand => ?_
  split
  · exact ⟨isResult, isOperand⟩
  · exact rfl

theorem isFor_simplifyFloatMul (opcode : op.opcode = .floatMul) :
    EnsuresValue True (facts.simplifyFloatMul op result) (Simplified.IsFor facts op) := by
  refine arg_mem.bind fun left isLeft => arg_mem.bind fun right isRight => ?_
  have byFactor {factor other : Value} {simplified : Simplified} (isArg : other ∈ op.args)
      (found : (do
        let value ← facts.float? factor
        if value.numericEq .one then return .equals result other
        else if value.numericEq .minusOne then return .cheaper (op.recode .floatNeg [other]) true
        else none) = some simplified) : simplified.IsFor facts op := by
    obtain ⟨value, _, found⟩ := bind_eq_some_iff.mp found
    split at found
    · cases found
      exact ⟨isResult, isArg⟩
    split at found
    · cases found
      exact isFor_cheaper isResult facts true (.inr (by simp [opcode])) (by simp [isArg])
    · cases found
  dsimp only
  split
  · exact byFactor isRight ‹_›
  · exact byFactor isLeft ‹_›
  · exact rfl

theorem isFor_simplifyPointers (negated ofInstances : Bool) :
    EnsuresValue True (facts.simplifyPointers op result negated ofInstances)
      (Simplified.IsFor facts op) := by
  refine arg_mem.bind fun left _ => arg_mem.bind fun right _ => ?_
  dsimp only
  split
  · exact isResult
  · exact rfl

theorem isFor_simplifyResult :
    EnsuresValue True (facts.simplifyResult op result) (Simplified.IsFor facts op) := by
  unfold simplifyResult
  split
  · exact isFor_simplifyAnd isResult
  iterate 3 exact isFor_simplifyZeroOperand isResult
  · exact isFor_simplifySub isResult
  · exact isFor_simplifyMul isResult
  · exact isFor_simplifyFloorDiv isResult
  · exact isFor_simplifyUintFloorDiv isResult
  iterate 3 exact isFor_simplifyShift isResult
  · exact isFor_simplifyIsTrue isResult
  · exact isFor_simplifyFloatMul isResult ‹_›
  iterate 4 exact isFor_simplifyPointers isResult _ _
  · exact arg_mem.bind fun operand isOperand => ⟨isResult, .inl isOperand⟩
  iterate 6 exact rfl

end

theorem isFor_simplifyComparison? (found : facts.simplifyComparison? op = some simplified) :
    simplified.IsFor facts op := by
  unfold simplifyComparison? at found
  split at found
  next result left right isResult _ =>
    simp only [orElse_eq_orElse, orElse_eq_or, or_eq_some_iff] at found
    rcases found with inverted | ⟨_, reflected | ⟨_, inverted⟩⟩
    · exact isFor_decidedInverse? isResult inverted
    · obtain ⟨reflex, _, reflected⟩ := bind_eq_some_iff.mp reflected
      obtain ⟨value, known, reflected⟩ := bind_eq_some_iff.mp reflected
      cases reflected
      exact ⟨isResult, .inr ⟨_, _, known⟩⟩
    · exact isFor_decidedInverse? isResult inverted
  · cases found

theorem isFor_simplify : EnsuresValue True (facts.simplify op) (Simplified.IsFor facts op) := by
  unfold simplify
  split
  next opcode =>
    refine arg_mem.bind fun divisor _ => ?_
    split
    · dsimp only
      split
      · refine arg_mem.bind fun dividend isDividend => ?_
        exact ⟨.inr opcode, _, _, rfl, .inr (by simp [opcode]), by simp [isDividend]⟩
      · exact rfl
    · exact rfl
  · exact ⟨‹_›, ‹_›⟩
  · exact rfl
  · exact isFor_simplifyResult ‹_›

end Facts

/-! ## Operations that are no guards -/

/-- So many operations were made cheaper or merged into a guard. -/
def PeepholeStats.Adds (changes : Nat) (before after : PeepholeStats) : Prop :=
  after.opsIn = before.opsIn ∧
    after.reduced + after.guardsMerged = before.reduced + before.guardsMerged + changes

/-- The operation as it is kept: a call whose result is not known is an ordinary call. -/
def Operation.kept (op : Operation) : Operation :=
  if op.opcode = .callPure ∨ op.opcode = .callLoopInvariant then op.recode .call op.args else op

namespace Peephole

open Facts

variable {op other : Operation} {walk after : Peephole} {facts : Facts}

/-- What is known once an operation was dropped: it had no result that counts, or its result is a
constant, an operand, a known result, or the result of an earlier call. -/
inductive Settled (op : Operation) (walk : Peephole) : Facts → Prop where
  | void : op.opcode ≠ .label → (op.result = none ∨ op.opcode = .condCall ∨
      op.opcode = .recordExactClass ∨ op.opcode = .call ∧ copyPlan walk.facts op ≠ .stay) →
        Settled op walk walk.facts
  | constant {result : Box} (literal : Const) : op.result = some result →
      Settled op walk (walk.facts.makeConstant (.box result) literal)
  | equal {result : Box} {value : Value} : op.result = some result →
      (value ∈ op.args ∨ (∃ opcode args, walk.facts.known.lookup opcode args = some value) ∨
        ∃ (function : Const) (box : Box),
          walk.invariantCalls[function]? = some (some box) ∧ value = .box box) →
          Settled op walk (walk.facts.makeEqual result value)

/-- What is emitted for an operation: what is kept of it, or something cheaper that reads its
operands and constants. -/
inductive Becomes (op : Operation) : Operation → Nat → Prop where
  | kept : Becomes op op.kept 0
  | cheaper {opcode : Opcode} {args : List Value} :
      (op.result ≠ none ∨ op.opcode = .floatTrueDiv ∨ op.opcode = .condCall) →
      op.opcode.IsCheaper opcode →
      (∀ value ∈ args, value ∈ op.args ∨ ∃ literal, value = .const literal) →
        Becomes op (op.recode opcode args) 1

/-- An operation went through emission, and its reverse forms may have become known. -/
inductive Emitted (op : Operation) (facts : Facts) : Facts → Prop where
  | once {appended : Bool} {after : Facts} : Facts.emit op facts = .ok appended after →
      Emitted op facts after
  | reversed {middle after : Facts} : Facts.emit op facts = .ok true middle →
      recordReverseOfLast middle = .ok () after → Emitted op facts after

/-- What may become of an operation that is no guard. -/
inductive PlainStep (op : Operation) (walk : Peephole) : Peephole → Prop where
  | claimed (source : Value) (vtable : UInt64) : op.opcode = .recordExactClass →
      PlainStep op walk { walk with
        facts := walk.facts.updatePointer source (PointerFact.withClass · vtable) }
  | dropped {facts : Facts} {stats : PeepholeStats} {changes : Nat} (lastRemoved : Bool) :
      Settled op walk facts → changes ≤ 1 → walk.stats.Adds changes stats →
        PlainStep op walk { walk with
          facts := { facts with lastRemoved := lastRemoved }, stats := stats }
  | emitted {other : Operation} {facts : Facts} {stats : PeepholeStats} {changes : Nat}
      {calls : Std.HashMap Const (Option Box)} : Becomes op other changes →
      (op.opcode = .call → copyPlan walk.facts op = .stay) → Emitted other walk.facts facts →
      walk.stats.Adds changes stats → (calls = walk.invariantCalls ∨
        op.opcode ≠ .label ∧ ∃ function, calls = walk.invariantCalls.insert function op.result) →
          PlainStep op walk ⟨facts, calls, stats⟩
  | copied {copy : ArrayCopy} {copied : Peephole} : op.opcode = .call →
      copyPlan walk.facts op = .items copy →
      (range copy.length).forM (emitCopyItem copy) walk = .ok () copied →
        PlainStep op walk { copied with
          facts := copied.facts.markRemoved
          stats := { copied.stats with callsRemoved := copied.stats.callsRemoved + 1 } }

/-! ### Emission -/

theorem emitted_emit (op : Operation) (walk : Peephole) :
    Ensures True (emit op) walk fun _ after => ∃ facts, Emitted op walk.facts facts ∧
      after = { walk with facts := facts } :=
  Ensures.bind_onFacts (.of_ran fun _ _ ran => ran) fun _ facts ran => ⟨facts, .once ran, rfl⟩

theorem emitted_emitReversible (op : Operation) (walk : Peephole) :
    Ensures True (emitReversible op) walk fun _ after => ∃ facts, Emitted op walk.facts facts ∧
      after = { walk with facts := facts } := by
  refine .bind_onFacts (.of_ran fun _ _ ran => ran) fun appended facts ran => ?_
  cases appended with
  | true => exact .onFacts (.of_ran fun _ after recorded => ⟨after, .reversed ran recorded, rfl⟩)
  | false => exact ⟨facts, .once ran, rfl⟩

theorem emit_output (op : Operation) (facts : Facts) :
    Ensures True (Facts.emit op) facts fun _ after => after.output = facts.output ∨
      after.output = facts.output.push (facts.resolveOperation op) := by
  refine .bind_get (Ensures.bind_lift (.of_ok fun emission _ => ?_))
  cases emission with
  | constant result literal => exact .inl (learns_makeConstant facts _ literal).output
  | reuse result value => exact .inl (learns_makeEqual facts result value).output
  | append interval => exact .inr (output_append _ _ _)

theorem recordReverseOfLast_eq (facts : Facts) : Ensures True recordReverseOfLast facts
    fun _ after => after = { facts with known := after.known } := by
  refine .bind_get ?_
  split
  · exact .bind_lift (.of_ok fun _ _ => rfl)
  · exact rfl

theorem Emitted.output {after : Facts} (emitted : Emitted op facts after) :
    after.output = facts.output ∨ after.output = facts.output.push (facts.resolveOperation op) := by
  cases emitted with
  | once ran => exact (emit_output op facts).of_ok ran
  | reversed ran recorded =>
    have grown := (emit_output op facts).of_ok ran
    rw [(recordReverseOfLast_eq _).of_ok recorded]
    exact grown

/-! ### The rules -/

theorem adds_reduced (stats : PeepholeStats) :
    stats.Adds 1 { stats with reduced := stats.reduced + 1 } :=
  ⟨rfl, Nat.add_right_comm _ 1 _⟩

theorem plainStep_emit (becomes : Becomes op other 0)
    (stays : op.opcode = .call → copyPlan walk.facts op = .stay) :
    Ensures True (emit other) walk fun _ after => PlainStep op walk after := by
  refine (emitted_emit other walk).weaken ?_
  rintro _ _ ⟨facts, emitted, rfl⟩
  exact .emitted becomes stays emitted ⟨rfl, rfl⟩ (.inl rfl)

theorem plainStep_perform {simplified : Simplified} (isFor : simplified.IsFor walk.facts op)
    (noCall : op.opcode ≠ .call ∧ op.kept = op) :
    Ensures True (perform simplified) walk fun _ after => PlainStep op walk after := by
  have stays : op.opcode = .call → copyPlan walk.facts op = .stay :=
    fun isCall => absurd isCall noCall.1
  have itself : Becomes op op 0 := by
    have becomes := @Becomes.kept op
    rwa [noCall.2] at becomes
  cases simplified with
  | keep other reversible =>
    cases isFor
    cases reversible with
    | true =>
      refine (emitted_emitReversible op walk).weaken ?_
      rintro _ _ ⟨facts, emitted, rfl⟩
      exact .emitted itself stays emitted ⟨rfl, rfl⟩ (.inl rfl)
    | false => exact plainStep_emit itself stays
  | cheaper other reversible =>
    obtain ⟨defined, opcode, args, rfl, isCheaper, reads⟩ := isFor
    have cheaper : Becomes op (op.recode opcode args) 1 :=
      .cheaper (defined.imp_right .inl) isCheaper reads
    refine .bind_updateStats ?_
    split
    · refine (emitted_emitReversible _ _).weaken ?_
      rintro _ _ ⟨facts, emitted, rfl⟩
      exact .emitted cheaper stays emitted (adds_reduced _) (.inl rfl)
    · refine (emitted_emit _ _).weaken ?_
      rintro _ _ ⟨facts, emitted, rfl⟩
      exact .emitted cheaper stays emitted (adds_reduced _) (.inl rfl)
  | equals result value =>
    exact .dropped _ (.equal isFor.1 (.inl isFor.2)) le_rfl (adds_reduced _)
  | names result value =>
    exact .dropped _ (.equal isFor.1 (isFor.2.imp_right .inl)) (Nat.zero_le 1) ⟨rfl, rfl⟩
  | word result value =>
    exact .dropped _ (.constant (.int value) isFor) (Nat.zero_le 1) ⟨rfl, rfl⟩
  | nothing =>
    have settled : Settled op walk walk.facts := .void (by simp [isFor.1]) (.inl isFor.2)
    exact .dropped _ settled (Nat.zero_le 1) ⟨rfl, rfl⟩

theorem plainStep_dropCall (settled : Settled op walk facts) :
    Ensures True dropCall { walk with facts := facts } fun _ after => PlainStep op walk after :=
  .dropped true settled (Nat.zero_le 1) ⟨rfl, rfl⟩

theorem plainStep_call (isCall : op.opcode = .call) :
    Ensures True (call op) walk fun _ after => PlainStep op walk after := by
  refine .bind_currentFacts ?_
  split
  next plan =>
    refine plainStep_dropCall (.void (by simp [isCall]) ?_)
    exact .inr (.inr (.inr ⟨isCall, by simp [plan]⟩))
  next copy plan => exact .bind (.of_ran fun _ _ ran => ran) fun _ _ ran => .copied isCall plan ran
  next plan =>
    have plain : op.kept = op := if_neg (by simp [isCall])
    have becomes := @Becomes.kept op
    rw [plain] at becomes
    exact plainStep_emit becomes fun _ => plan

section

variable (recoded : op.kept = op.recode .call op.args) (noCall : op.opcode ≠ .call)
  (noLabel : op.opcode ≠ .label)

include recoded noCall noLabel

theorem plainStep_callPure :
    Ensures True (callPure op) walk fun _ after => PlainStep op walk after := by
  refine .bind_currentFacts ?_
  split
  · split
    · exact plainStep_dropCall (.constant _ ‹_›)
    · exact plainStep_dropCall (.void noLabel (.inl ‹_›))
  · exact plainStep_emit (recoded ▸ .kept) fun isCall => absurd isCall noCall

theorem plainStep_callLoopInvariant :
    Ensures True (callLoopInvariant op) walk fun _ after => PlainStep op walk after := by
  have becomes : Becomes op (op.recode .call op.args) 0 := recoded ▸ .kept
  have stays : op.opcode = .call → copyPlan walk.facts op = .stay := fun isCall =>
    absurd isCall noCall
  refine .bind_get (Ensures.bind_lift (ensuresValue_arg fun source _ => ?_))
  split
  · exact plainStep_emit becomes stays
  rename_i function _
  split
  next earlier result wasCalled isResult =>
    exact plainStep_dropCall (.equal isResult (.inr (.inr ⟨function, earlier, wasCalled, rfl⟩)))
  · exact plainStep_dropCall (.void noLabel (.inl ‹_›))
  · refine (emitted_emit _ walk).bind ?_
    rintro _ _ ⟨facts, emitted, rfl⟩
    exact .emitted becomes stays emitted ⟨rfl, rfl⟩ (.inr ⟨noLabel, function, rfl⟩)

end

theorem plainStep_condCall (isCondCall : op.opcode = .condCall) :
    Ensures True (condCall op) walk fun _ after => PlainStep op walk after := by
  have stays : op.opcode = .call → copyPlan walk.facts op = .stay :=
    fun isCall => by simp [isCondCall] at isCall
  refine .bind_currentFacts_arg fun source _ => ?_
  dsimp only
  split
  · exact plainStep_dropCall (.void (by simp [isCondCall]) (.inr (.inl isCondCall)))
  split
  · refine .bind_updateStats ((emitted_emit _ _).weaken ?_)
    rintro _ _ ⟨facts, emitted, rfl⟩
    exact .emitted (.cheaper (.inr (.inr isCondCall)) (.inl (by simp))
      fun _ isArg => .inl (mem_of_mem_drop isArg)) stays emitted (adds_reduced _) (.inl rfl)
  · have plain : op.kept = op := if_neg (by simp [isCondCall])
    have becomes := @Becomes.kept op
    rw [plain] at becomes
    exact plainStep_emit becomes stays

theorem plainStep_recordExactClass (opcode : op.opcode = .recordExactClass) :
    Ensures True (recordExactClass op) walk fun _ after => PlainStep op walk after := by
  have unchanged : PlainStep op walk walk := by
    have settled : Settled op walk walk.facts :=
      .void (by simp [opcode]) (.inr (.inr (.inl opcode)))
    exact .dropped _ settled (Nat.zero_le 1) ⟨rfl, rfl⟩
  refine .bind_currentFacts_arg fun source _ => ?_
  refine .bind_arg fun second _ => ?_
  split
  · exact unchanged
  split
  · split
    · exact trivial
    · exact unchanged
  · exact .claimed _ _ opcode

theorem plainStep_step (noGuard : op.isGuard = false) (walk : Peephole) :
    Ensures True (step op) walk fun _ after => PlainStep op walk after := by
  have undecided (isCall : op.opcode ∈ [.call, .callPure, .callLoopInvariant]) :
      walk.facts.simplifyComparison? op = none := by
    simp only [mem_cons, not_mem_nil, or_false] at isCall
    apply simplifyComparison?_eq_none <;> rcases isCall with isCall | isCall | isCall <;>
      rw [isCall] <;> rfl
  have noCall (others : op.opcode ∉ [.call, .callPure, .callLoopInvariant]) :
      op.opcode ≠ .call ∧ op.kept = op := by
    simp only [mem_cons, not_mem_nil, or_false, not_or] at others
    simp [Operation.kept, others]
  refine .bind_currentFacts ?_
  split
  next simplified decided =>
    refine plainStep_perform (isFor_simplifyComparison? decided) (noCall fun isCall => ?_)
    exact some_ne_none _ (decided.symm.trans (undecided isCall))
  cases opcode : op.opcode with
  | guardTrue | guardFalse | guardValue | guardIsNull | guardNonnull | guardIsObject | guardGcType
  | guardSubclass | guardClass | guardNonnullClass | guardNoException =>
    rw [Operation.isGuard, opcode] at noGuard
    cases noGuard
  | call => exact plainStep_call opcode
  | callPure =>
    exact plainStep_callPure (if_pos (.inl opcode)) (by simp [opcode]) (by simp [opcode])
  | callLoopInvariant =>
    exact plainStep_callLoopInvariant (if_pos (.inr opcode)) (by simp [opcode]) (by simp [opcode])
  | condCall => exact plainStep_condCall opcode
  | recordExactClass => exact plainStep_recordExactClass opcode
  | _ =>
    exact .bind_lift (isFor_simplify.weaken fun _ isFor =>
      plainStep_perform isFor (noCall (by simp [opcode])))

/-! ## Contributions -/

/-- What handling an operation does to the output. -/
inductive Contributes (op : Operation) (walk after : Peephole) : Prop where
  | dropped : after.facts.output = walk.facts.output → walk.stats.Adds 0 after.stats →
      Contributes op walk after
  | kept : after.facts.output = walk.facts.output.push (walk.facts.resolveOperation op.kept) →
      walk.stats.Adds 0 after.stats →
        (op.opcode = .call → copyPlan walk.facts op = .stay) → Contributes op walk after
  | copied {added : List Operation} : op.opcode = .call → copyPlan walk.facts op ≠ .stay →
      after.facts.output.toList = walk.facts.output.toList ++ added →
        (∀ new ∈ added, new.opcode = .getArrayItemGc ∨ new.opcode = .setArrayItemGc) →
          walk.stats.Adds 0 after.stats → Contributes op walk after
  | reduced : walk.facts.output.toList <+: after.facts.output.toList →
      walk.stats.Adds 1 after.stats → Contributes op walk after
  | merged {position : Nat} {earlier stronger : Operation} :
      walk.facts.output[position]? = some earlier → earlier.resume ≠ .atPosition →
        after.facts.output = walk.facts.output.setIfInBounds position stronger →
          walk.stats.Adds 1 after.stats → Contributes op walk after

theorem GuardStep.contributes (isGuard : op.isGuard) (stepped : GuardStep op walk after) :
    Contributes op walk after := by
  have noCall : op.opcode ≠ .call ∧ op.kept = op := by
    unfold Operation.isGuard at isGuard
    refine ⟨?_, if_neg (not_or.mpr ⟨?_, ?_⟩)⟩ <;> intro isCall <;> rw [isCall] at isGuard <;>
      cases isGuard
  cases stepped with
  | removed _ _ => exact .dropped rfl ⟨rfl, rfl⟩
  | kept _ learned =>
    refine .kept (learned.output.trans ?_) ⟨rfl, rfl⟩ fun isCall => absurd isCall noCall.1
    rw [noCall.2]
  | merged _ _ _ _ found movable _ _ learned =>
    exact .merged found movable learned.output ⟨rfl, rfl⟩

/-- Nothing but loads and stores of items was appended. -/
def Copies (walk after : Peephole) : Prop :=
  after.stats = walk.stats ∧ ∃ added,
    after.facts.output.toList = walk.facts.output.toList ++ added ∧
      ∀ new ∈ added, new.opcode = .getArrayItemGc ∨ new.opcode = .setArrayItemGc

theorem Copies.emit {before : Peephole} (copies : Copies walk before)
    (isAccess : op.opcode = .getArrayItemGc ∨ op.opcode = .setArrayItemGc) :
    Ensures True (emit op) before fun _ after => Copies walk after := by
  obtain ⟨sameStats, added, output, accesses⟩ := copies
  refine (emitted_emit op before).weaken ?_
  rintro _ _ ⟨facts, emitted, rfl⟩
  refine ⟨sameStats, ?_⟩
  rcases emitted.output with same | appended
  · exact ⟨added, same ▸ output, accesses⟩
  refine ⟨added ++ [before.facts.resolveOperation op], ?_, ?_⟩
  · rw [appended, Array.toList_push, output, append_assoc]
  intro new isNew
  rcases mem_append.mp isNew with isOld | isLast
  · exact accesses new isOld
  · exact mem_singleton.mp isLast ▸ isAccess

theorem copies_forM (copy : ArrayCopy) (walk : Peephole) :
    Ensures True ((range copy.length).forM (emitCopyItem copy)) walk
      fun _ after => Copies walk after := by
  refine .forM ⟨rfl, [], (append_nil _).symm, by simp⟩ fun _ _ before copies => ?_
  refine .bind_modifyGet ?_
  have drawn : Copies walk { before with
      facts := (before.facts.freshBox copy.array.itemType).2 } := copies
  exact (drawn.emit (.inl rfl)).bind fun _ _ copies => copies.emit (.inr rfl)

theorem Settled.learns (settled : Settled op walk facts) : walk.facts.Learns facts := by
  cases settled with
  | void _ _ => exact .refl _
  | constant literal _ => exact learns_makeConstant walk.facts _ literal
  | equal _ _ => exact learns_makeEqual walk.facts _ _

theorem PlainStep.contributes (stepped : PlainStep op walk after) : Contributes op walk after := by
  cases stepped with
  | claimed source vtable _ =>
    refine .dropped ?_ ⟨rfl, rfl⟩
    rw [updatePointer_eq]
  | dropped _ settled few adds =>
    rcases Nat.le_one_iff_eq_zero_or_eq_one.mp few with rfl | rfl
    · exact .dropped settled.learns.output adds
    · exact .reduced (settled.learns.output ▸ prefix_rfl) adds
  | emitted becomes stays emitted adds _ =>
    cases becomes with
    | kept =>
      rcases emitted.output with same | appended
      · exact .dropped same adds
      · exact .kept appended adds stays
    | cheaper _ _ _ =>
      refine .reduced ?_ adds
      rcases emitted.output with same | appended
      · exact same ▸ prefix_rfl
      · rw [appended, Array.toList_push]
        exact prefix_append _ _
  | copied isCall plan ran =>
    obtain ⟨sameStats, added, output, accesses⟩ := (copies_forM _ walk).of_ok ran
    refine .copied isCall (by simp [plan]) output accesses ?_
    rw [sameStats]
    exact ⟨rfl, rfl⟩

theorem contributes_step (op : Operation) (walk : Peephole) :
    Ensures True (step op) walk fun _ after => Contributes op walk after := by
  cases isGuard : op.isGuard with
  | true => exact (guardStep_step isGuard).weaken fun _ _ => GuardStep.contributes isGuard
  | false => exact (plainStep_step isGuard walk).weaken fun _ _ => PlainStep.contributes

end Peephole

/-! ## Steps of a walk -/

namespace Trace

/-- A step of the walk over a trace. -/
structure StepAt (target : Target) (trace : Trace) (count : Nat) (op : Operation)
    (walk next : Peephole) : Prop where
  found : trace.ops[count]? = some op
  walked : trace.walkTo target count = some walk
  handled : walk.handle op = some next

variable {target : Target} {trace : Trace} {count : Nat} {op : Operation}
  {walk next final : Peephole}

section

variable (step : StepAt target trace count op walk next)

include step

theorem StepAt.inside : count < trace.ops.length :=
  (List.getElem?_eq_some_iff.mp step.found).1

theorem StepAt.walkedNext : trace.walkTo target (count + 1) = some next := by
  rw [walkTo_succ step.found, step.walked]
  exact step.handled

theorem StepAt.contributes : Peephole.Contributes op walk.counted next :=
  (Peephole.contributes_step op walk.counted).of_ok (Peephole.step_of_handle step.handled)

end

/-- What each step keeps holds at the end of the walk. -/
theorem walk_induction {motive : Nat → Peephole → Prop} {last : Nat}
    (inside : last ≤ trace.ops.length)
    (base : ∀ walk, trace.walkTo target count = some walk → motive count walk)
    (keeps : ∀ between op walk next, count ≤ between → StepAt target trace between op walk next →
      motive between walk → motive (between + 1) next) (ordered : count ≤ last)
    (walked : trace.walkTo target last = some final) :
    motive last final := by
  induction last, ordered using Nat.le_induction generalizing final with
  | base => exact base final walked
  | succ last ordered ih =>
    obtain ⟨op, walk, found, walkedTo, handled⟩ := walkTo_succ_eq_some (by omega) walked
    exact keeps last op walk final ordered ⟨found, walkedTo, handled⟩
      (ih (Nat.le_of_succ_le inside) walkedTo)

theorem exists_stepAt (walked : trace.walkTo target trace.ops.length = some final)
    (found : trace.ops[count]? = some op) :
    ∃ walk next, StepAt target trace count op walk next := by
  have inside := (List.getElem?_eq_some_iff.mp found).1
  obtain ⟨next, walkedNext⟩ : ∃ next, trace.walkTo target (count + 1) = some next :=
    walk_induction (motive := fun _ _ => ∃ next, trace.walkTo target (count + 1) = some next)
      le_rfl (fun walk walked => ⟨walk, walked⟩) (fun _ _ _ _ _ _ walked => walked) inside walked
  obtain ⟨_, walk, foundAt, walkedTo, handled⟩ := walkTo_succ_eq_some inside walkedNext
  cases found.symm.trans foundAt
  exact ⟨walk, next, found, walkedTo, handled⟩

end Trace

end LinearTrace
