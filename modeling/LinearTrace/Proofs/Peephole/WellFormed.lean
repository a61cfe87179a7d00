import Mathlib.Tactic.MkIffOfInductiveProp
import LinearTrace.Proofs.Peephole.Contribution

/-!
# Simplified traces are well formed

Whatever rule handles an operation, the boxes that the operation brought into scope are
covered afterwards: they are defined in the output or replaced by a value that is.
-/

namespace LinearTrace

open List Option Operation

variable {position : Nat} {result : Box} {facts : Facts} {opcode : Opcode} {args : List Value}
  {simplified : Simplified} {ops : List Operation}

/-- What is expected of an operation, apart from its scope: operations without a kind of result and
copies between arrays define no box, and only guards have a snapshot. -/
@[mk_iff]
structure Operation.IsOrdinary (op : Operation) : Prop where
  void : op.opcode.resultClass = .void → op.result = none
  unguarded : op.isGuard = false → op.snapshot = none
  copies : op.opcode = .call → (op.call?.map CallDescriptor.meaning) = some .arrayCopy →
    op.result = none

instance (op : Operation) : Decidable op.IsOrdinary :=
  decidable_of_iff' _ op.isOrdinary_iff

namespace Peephole

open Facts

variable {bound : Nat} {seen : List Box} {walk : Peephole} {op : Operation} {value : Value}
  {box : Box}

/-- The facts are scoped, and the calls that do not vary have results seen so far. -/
structure IsScoped (bound : Nat) (seen : List Box) (walk : Peephole) : Prop where
  facts : walk.facts.IsScoped bound seen
  calls : ∀ (function : Const) (box : Box),
    walk.invariantCalls[function]? = some (some box) → box ∈ seen

theorem IsScoped.withFacts (sound : walk.IsScoped bound seen) {boxes : List Box}
    (kept : facts.IsScoped bound (seen ++ boxes)) :
    ({ walk with facts := facts } : Peephole).IsScoped bound (seen ++ boxes) :=
  ⟨kept, fun function box entry => mem_append_left boxes (sound.calls function box entry)⟩

theorem IsScoped.mark (sound : walk.IsScoped bound seen) (lastRemoved : Bool)
    (stats : PeepholeStats) :
    (⟨{ walk.facts with lastRemoved := lastRemoved }, walk.invariantCalls, stats⟩ :
      Peephole).IsScoped bound seen :=
  ⟨sound.facts.of_same sound.facts.formed rfl rfl rfl rfl, sound.calls⟩

theorem Emitted.isScoped {after : Facts} (emitted : Emitted op facts after)
    (sound : facts.IsScoped bound seen) (accepts : facts.Accepts op) :
    after.IsScoped bound (seen ++ op.introduces) := by
  cases emitted with
  | once ran => exact (sound.emit accepts).of_ok ran
  | reversed ran recorded =>
    exact ((sound.emit accepts).of_ok ran).recordReverseOfLast.of_ok recorded

/-! ## Guards -/

section

variable (remembers : walk.facts.RemembersGuards)

include remembers

/-- What is learned from a guard that was appended: its reference remembers it at most. -/
theorem remembersGuards_of_learnedFrom
    (learned : LearnedFrom op walk.facts facts) : facts.RemembersGuards := by
  have emitted : (walk.facts.afterEmit op).RemembersGuards := RemembersGuards.append remembers _ _
  cases learned with
  | nothing => exact emitted
  | constant _ _ narrowed =>
    refine Remembers.learn ?_ (learns_makeConstant _ _ _)
    rcases narrowed with rfl | ⟨truth, _, ran⟩
    · exact emitted
    · exact emitted.learn ((narrowCondition_learns _ truth _).of_ok ran)
  | @pointer learn source first onReference lastGuard =>
    refine emitted.updatePointer fun box position resolved isLast => ?_
    split at isLast
    · rw [lastGuard] at isLast
      exact (emitted.remembered_getD isLast).2
    rename_i movable
    cases isLast
    rw [resolve, afterEmit, replacements_append] at resolved
    have isBox := (remembers.resolve_resolve source).symm.trans resolved
    refine ⟨walk.facts.resolveOperation op, ?_, onReference, ?_, movable⟩
    · rw [Facts.afterEmit, output_append, nextPosition, Array.getElem?_push_size]
    · rw [resolveOperation_getElem? first, isBox]

theorem remembersGuards_emit (op : Operation) :
    Ensures True (Facts.emit op) walk.facts fun _ after => after.RemembersGuards := by
  refine .bind_get (Ensures.bind_lift (.of_ok fun emission _ => ?_))
  cases emission with
  | constant result literal => exact remembers.learn (learns_makeConstant _ _ literal)
  | reuse result value => exact remembers.learn (learns_makeEqual _ result value)
  | append interval => exact RemembersGuards.append remembers _ interval

/-- Whatever a step does, the guards that references remember are in the output. -/
theorem remembersGuards_step (op : Operation) :
    Ensures True (step op) walk fun _ after => after.facts.RemembersGuards := by
  have emits {before : Peephole} (remembers : before.facts.RemembersGuards) (op : Operation) :
      Ensures True (emit op) before fun _ after => after.facts.RemembersGuards :=
    Ensures.bind_onFacts (remembersGuards_emit remembers op) fun _ _ kept => kept
  cases isGuard : op.isGuard with
  | true =>
    refine (guardStep_step isGuard).weaken fun _ after stepped => ?_
    cases stepped with
    | removed _ _ => exact remembers
    | kept _ learned => exact remembersGuards_of_learnedFrom remembers learned
    | merged _ _ resolved last found _ first kind learned =>
      induction learned with
      | pointer keeps =>
        have itself := remembers.resolve_box resolved
        rw [pointer_of_box itself] at last
        refine remembers.overwrite (fun _ _ _ => (·.first)) itself last fun next isNext => ?_
        obtain ⟨wasLast, notValue⟩ := keeps _ next isNext
        cases wasLast.symm.trans last
        obtain ⟨_, guard, isGuard, guards⟩ := remembers.remembered_getD last
        cases found.symm.trans isGuard
        cases first.symm.trans guards.first
        have opcode := kind.resolve_right fun isValue => notValue isValue.2
        exact ⟨rfl, by simp [Operation.recode, opcode], rfl, Resume.noConfusion⟩
      | constant _ _ _ ih => exact ih.learn (learns_makeConstant _ _ _)
  | false =>
    refine (plainStep_step isGuard walk).weaken fun _ after stepped => ?_
    cases stepped with
    | claimed source vtable _ =>
      have claimed : (walk.facts.updatePointer source (PointerFact.withClass · vtable)).RemembersGuards :=
        remembers.updatePointer fun _ _ _ last => (remembers.remembered_getD last).2
      exact claimed
    | dropped _ settled _ _ =>
      have kept := remembers.learn settled.learns
      exact ⟨kept.acyclic, kept.remembered⟩
    | emitted _ _ emitted _ _ =>
      cases emitted with
      | once ran => exact (remembersGuards_emit remembers _).of_ok ran
      | reversed ran recorded =>
        have kept := (remembersGuards_emit remembers _).of_ok ran
        rw [(recordReverseOfLast_eq _).of_ok recorded]
        exact ⟨kept.acyclic, kept.remembered⟩
    | @copied copy _ _ _ ran =>
      have copies : Ensures True ((range copy.length).forM (emitCopyItem copy)) walk
          fun _ after => after.facts.RemembersGuards := by
        refine .forM remembers fun _ _ before kept => Ensures.bind_modifyGet ?_
        have drawn : ({ before with facts := (before.facts.freshBox copy.array.itemType).2 } :
            Peephole).facts.RemembersGuards := ⟨kept.acyclic, kept.remembered⟩
        exact (emits drawn _).bind fun _ _ kept => emits kept _
      have kept := copies.of_ok ran
      exact ⟨kept.acyclic, kept.remembered⟩

end

theorem scoped_strengthen (sound : facts.IsScoped bound seen) {earlier : Operation}
    {argument : Value} (literal : Const) (wasGuard : earlier.opcode ≠ .label)
    (found : facts.output[position]? = some earlier) (first : earlier.args[0]? = some argument)
    (isGuard : opcode ≠ .label) :
    (facts.strengthen position earlier opcode argument literal).IsScoped bound seen := by
  refine sound.replaceOperation found wasGuard isGuard rfl fun value isUse => ?_
  obtain isArg | isFail := mem_append.mp isUse
  · obtain rfl | isConst := mem_cons.mp isArg
    · exact .inl (mem_append_left _ (mem_of_getElem? first))
    · exact .inr ⟨literal, mem_singleton.mp isConst⟩
  · exact .inl (mem_append_right _ isFail)

theorem scoped_guard (sound : walk.IsScoped bound seen) (remembers : walk.facts.RemembersGuards)
    (accepts : walk.facts.Accepts op) (isGuard : op.isGuard) :
    Ensures True (step op) walk fun _ after => after.IsScoped bound (seen ++ op.introduces) := by
  rw [accepts.introduces_of_isGuard isGuard, append_nil]
  refine (guardStep_step isGuard).weaken fun _ after stepped => ?_
  cases stepped with
  | removed _ _ => exact ⟨sound.facts, sound.calls⟩
  | kept _ learned =>
    have emitted := sound.facts.append accepts .unbounded
    rw [accepts.introduces_of_isGuard isGuard, append_nil] at emitted
    refine ⟨?_, sound.calls⟩
    cases learned with
    | nothing => exact emitted
    | constant _ _ narrowed =>
      refine IsScoped.makeConstant ?_ _ _
      rcases narrowed with rfl | ⟨truth, _, ran⟩
      · exact emitted
      · exact ((Facts.IsScoped.keptByNarrowing _ _).narrowCondition _ truth emitted).of_ok ran
    | pointer _ _ _ =>
      dsimp only
      exact emitted.updatePointer _ _
  | merged _ _ _ last found _ first kind learned =>
    refine ⟨?_, sound.calls⟩
    obtain ⟨box, fact, entry, isLast⟩ := exists_entry_of_lastGuard last
    obtain ⟨_, isGuard, guards⟩ := remembers.remembered box fact _ entry isLast
    cases found.symm.trans isGuard
    induction learned with
    | pointer _ =>
      exact IsScoped.updatePointer (scoped_strengthen sound.facts _ guards.not_label found first
        (by rcases kind with rfl | ⟨rfl, _⟩ <;> simp)) _ _
    | constant _ _ _ ih => exact ih.makeConstant _ _

/-! ## Other operations -/

theorem accepts_recode (accepts : facts.Accepts op) (noLabel : op.opcode ≠ .label)
    (noGuard : op.isGuard = false) (noLabelAfter : opcode ≠ .label)
    (noGuardAfter : opcode.isGuard = false) (reads : ∀ value ∈ args, facts.CoversValue value) :
    facts.Accepts (op.recode opcode args) where
  reads _ value isUse := by
    have noFail : (op.recode opcode args).failArgs = [] := by
      unfold failArgs
      rw [show (op.recode opcode args).snapshot = none from accepts.unguarded noGuard]
    rw [uses, noFail, append_nil] at isUse
    exact reads value isUse
  fresh := accepts.fresh
  below := by
    have below := accepts.below
    rw [introduces_of_ne noLabel] at below
    rw [introduces_of_ne noLabelAfter]
    exact below
  unguarded _ := accepts.unguarded noGuard
  void isVoid := by
    obtain isLabel | isGuard := isVoid
    · exact absurd isLabel noLabelAfter
    · cases noGuardAfter.symm.trans isGuard

/-- What is emitted in an operation's place is accepted and brings in the same boxes. -/
theorem Becomes.accepts {other : Operation} {changes : Nat} (becomes : Becomes op other changes)
    (accepts : facts.Accepts op) (noGuard : op.isGuard = false) :
    facts.Accepts other ∧ other.introduces = op.introduces := by
  have recoded {opcode : Opcode} {args : List Value} (noLabel : op.opcode ≠ .label)
      (noLabelAfter : opcode ≠ .label) (noGuardAfter : opcode.isGuard = false)
      (reads : ∀ value ∈ args, value ∈ op.args ∨ ∃ literal, value = .const literal) :
      facts.Accepts (op.recode opcode args) ∧
        (op.recode opcode args).introduces = op.introduces := by
    refine ⟨accepts_recode accepts noLabel noGuard noLabelAfter noGuardAfter
      fun value isArg => ?_, ?_⟩
    · rcases reads value isArg with isArg | ⟨literal, rfl⟩
      · exact coversValue_of_arg accepts noLabel isArg
      · exact fun box isBox => absurd isBox (not_mem_none box)
    · rw [introduces_of_ne noLabel, introduces_of_ne noLabelAfter]
      rfl
  cases becomes with
  | kept =>
    unfold Operation.kept
    split
    next isCall =>
      refine recoded (fun isLabel => ?_) (by decide) rfl fun _ isArg => .inl isArg
      simp [isLabel] at isCall
    · exact ⟨accepts, rfl⟩
  | cheaper defined isCheaper reads =>
    have noLabel : op.opcode ≠ .label := by
      rintro isLabel
      rcases defined with defined | opcode | opcode
      · exact defined (accepts.void (.inl isLabel))
      iterate 2 simp [isLabel] at opcode
    simp only [Opcode.IsCheaper, mem_cons, not_mem_nil, or_false] at isCheaper
    refine recoded noLabel ?_ ?_ reads
    all_goals rcases isCheaper with (rfl | rfl | rfl | rfl) | ⟨rfl | rfl, _⟩ <;> decide

theorem accepts_access (sound : facts.IsScoped bound seen) (noLabel : op.opcode ≠ .label)
    (noGuard : op.isGuard = false) (snapshot : op.snapshot = none)
    (reads : ∀ value ∈ op.args, ∀ box ∈ value.box?, box ∈ seen)
    (fresh : ∀ box ∈ op.result, box ∉ facts.scope ∧ box.id < facts.supply.next) :
    facts.Accepts op where
  reads _ value isUse box isBox := by
    unfold uses failArgs at isUse
    rw [snapshot, append_nil] at isUse
    exact sound.covered box (reads value isUse box isBox)
  fresh box isResult := (fresh box isResult).1
  below box isIn := by
    rw [introduces_of_ne noLabel] at isIn
    exact (fresh box (mem_toList.mp isIn)).2
  unguarded _ := snapshot
  void isVoid := by
    obtain isLabel | isGuard := isVoid
    · exact absurd isLabel noLabel
    · cases noGuard.symm.trans isGuard

theorem scoped_emitCopyItem (sound : walk.IsScoped bound seen) {copy : ArrayCopy}
    (source : ∀ box ∈ copy.source.box?, box ∈ seen) (dest : ∀ box ∈ copy.dest.box?, box ∈ seen)
    (position : Nat) :
    Ensures True (emitCopyItem copy position) walk fun _ after => after.IsScoped bound seen := by
  refine .bind_modifyGet ?_
  have drawn := sound.facts.freshBox copy.array.itemType
  generalize isItem : (walk.facts.freshBox copy.array.itemType).1 = item
  have isNext : item.id = walk.facts.supply.next := isItem ▸ rfl
  have isNew : item ∉ walk.facts.scope := fun inScope =>
    Nat.lt_irrefl _ (isNext ▸ sound.facts.below item inScope)
  have load : (walk.facts.freshBox copy.array.itemType).2.Accepts
      { opcode := .getArrayItemGc
        args := [copy.source, .int (copy.sourceStart + Int64.ofNat position)]
        result := some item, descriptor := some (.array copy.array) } := by
    refine accepts_access drawn (fun isLabel => by cases isLabel) rfl rfl ?_ ?_
    · intro value isArg box isBox
      obtain rfl | isConst := mem_cons.mp isArg
      · exact source box isBox
      · cases mem_singleton.mp isConst
        cases isBox
    · rintro box ⟨⟩
      exact ⟨isNew, isNext ▸ Nat.lt_succ_self _⟩
  refine (emitted_emit _ _).bind ?_
  rintro _ _ ⟨loaded, emitted, rfl⟩
  have kept := emitted.isScoped drawn load
  rw [introduces_of_ne (fun isLabel => by cases isLabel)] at kept
  have store : loaded.Accepts
      { opcode := .setArrayItemGc
        args := [copy.dest, .int (copy.destStart + Int64.ofNat position), .box item]
        descriptor := some (.array copy.array) } := by
    refine accepts_access kept (fun isLabel => by cases isLabel) rfl rfl ?_ ?_
    · intro value isArg box isBox
      simp only [mem_cons, not_mem_nil, or_false] at isArg
      obtain rfl | rfl | rfl := isArg
      · exact mem_append_left _ (dest box isBox)
      · cases isBox
      · exact mem_append_right _ (mem_toList.mpr (some.inj isBox ▸ rfl))
    · exact fun box isResult => absurd isResult (not_mem_none box)
  refine (emitted_emit _ _).weaken ?_
  rintro _ _ ⟨stored, emitted, rfl⟩
  have kept := emitted.isScoped kept store
  rw [introduces_of_ne (fun isLabel => by cases isLabel), toList_none,
    append_nil] at kept
  exact ⟨kept.forget (isNext ▸ sound.facts.above), sound.calls⟩

theorem operands_of_arrayCopy? {copy : ArrayCopy} (isCopy : arrayCopy? facts op = some copy) :
    copy.source ∈ op.args ∧ copy.dest ∈ op.args := by
  simp only [arrayCopy?, bind_eq_bind, bind_eq_some_iff] at isCopy
  obtain ⟨source, isSource, dest, isDest, _, _, _, _, _, _, _, _, _, _, _, _, _, _, _, _, _, _, _, _,
    isCopy⟩ := isCopy
  cases isCopy
  exact ⟨mem_of_getElem? isSource, mem_of_getElem? isDest⟩

theorem copyPlan_cases (facts : Facts) (op : Operation) : copyPlan facts op = .stay ∨
      (op.call?.map CallDescriptor.meaning) = some .arrayCopy ∧
        (copyPlan facts op = .empty ∨ ∃ copy, copyPlan facts op = .items copy ∧
          copy.source ∈ op.args ∧ copy.dest ∈ op.args) := by
  unfold copyPlan
  split
  next isCopy =>
    split
    · split
      · exact .inr ⟨isCopy, .inl rfl⟩
      split
      next copy isItems => exact .inr ⟨isCopy, .inr ⟨copy, rfl, operands_of_arrayCopy? isItems⟩⟩
      · exact .inl rfl
    · exact .inl rfl
  · exact .inl rfl

/-- The result of a dropped operation is covered by what it stands for. -/
theorem Settled.isScoped (settled : Settled op walk facts) (sound : walk.IsScoped bound seen)
    (accepts : walk.facts.Accepts op) (ordinary : op.IsOrdinary) :
    facts.IsScoped bound (seen ++ op.introduces) := by
  cases settled with
  | void noLabel isVoid =>
    have noResult : op.result = none := by
      rcases isVoid with noResult | opcode | opcode | ⟨isCall, moves⟩
      · exact noResult
      iterate 2 exact ordinary.void (opcode ▸ rfl)
      · rcases copyPlan_cases walk.facts op with stays | ⟨isCopy, _⟩
        · exact absurd stays moves
        · exact ordinary.copies isCall isCopy
    rw [introduces_of_ne noLabel, noResult, toList_none, append_nil]
    exact sound.facts
  | constant literal isResult =>
    rw [accepts.introduces_of_result isResult]
    exact (sound.facts.makeConstant _ literal).extend fun box isBox =>
      mem_singleton.mp isBox ▸ covers_makeConstant walk.facts _ literal
  | equal isResult origin =>
    rename_i result value
    have covered : walk.facts.CoversValue value := by
      rcases origin with isArg | ⟨_, _, known⟩ | ⟨function, earlier, wasCalled, rfl⟩
      · refine coversValue_of_arg accepts (fun isLabel => ?_) isArg
        cases isResult.symm.trans (accepts.void (.inl isLabel))
      · exact fun box isBox => .inl (sound.facts.known _ _ value known box isBox)
      · exact fun box isBox => some.inj isBox ▸
          sound.facts.covered earlier (sound.calls function earlier wasCalled)
    rw [accepts.introduces_of_result isResult]
    exact (sound.facts.makeEqual result covered).extend fun box isBox =>
      mem_singleton.mp isBox ▸ sound.facts.covers_makeEqual result covered

/-! ## Whole walks -/

theorem accepts_of_formedIn (sound : facts.IsScoped bound seen) (ordinary : op.IsOrdinary)
    (formed : op.FormedIn seen) (below : ∀ box ∈ op.introduces, box.id < bound) :
    facts.Accepts op where
  reads noLabel value isUse box isBox := sound.covered box (formed.1 noLabel value isUse box isBox)
  fresh box isResult inScope := by
    obtain isSeen | isAbove := sound.origin box inScope
    · exact formed.2 box isResult isSeen
    · exact Nat.not_lt.mpr isAbove (below box (mem_introduces_of_result isResult))
  below box isIn := Nat.lt_of_lt_of_le (below box isIn) sound.above
  unguarded := ordinary.unguarded
  void isVoid := by
    obtain isLabel | isGuard := isVoid
    · exact ordinary.void (isLabel ▸ rfl)
    · exact ordinary.void (Opcode.resultClass_of_isGuard isGuard)

/-- After an operation was handled, its boxes are covered as well. -/
theorem scoped_step (sound : walk.IsScoped bound seen)
    (remembers : walk.facts.RemembersGuards) (ordinary : op.IsOrdinary)
    (formed : op.FormedIn seen) (below : ∀ box ∈ op.introduces, box.id < bound) :
    Ensures True (step op) walk fun _ after =>
      after.IsScoped bound (seen ++ op.introduces) := by
  have accepts := accepts_of_formedIn sound.facts ordinary formed below
  by_cases isGuard : op.isGuard = true
  · exact scoped_guard sound remembers accepts isGuard
  have noGuard := Bool.eq_false_iff.mpr isGuard
  refine (plainStep_step noGuard walk).weaken fun _ after stepped => ?_
  cases stepped with
  | claimed source vtable opcode =>
    rw [introduces_of_ne (opcode ▸ by decide), ordinary.void (opcode ▸ rfl),
      toList_none, append_nil]
    exact ⟨sound.facts.updatePointer source (PointerFact.withClass · vtable), sound.calls⟩
  | dropped lastRemoved settled _ _ =>
    exact (sound.withFacts (settled.isScoped sound accepts ordinary)).mark lastRemoved _
  | emitted becomes _ emitted _ called =>
    obtain ⟨acceptsOther, sameBoxes⟩ := becomes.accepts accepts noGuard
    refine ⟨sameBoxes ▸ emitted.isScoped sound.facts acceptsOther, fun function box entry => ?_⟩
    rcases called with rfl | ⟨noLabel, called, rfl⟩
    · exact mem_append_left _ (sound.calls function box entry)
    rw [Std.HashMap.getElem?_insert] at entry
    split at entry
    · exact mem_append_right _ (mem_introduces_of_result (some.inj entry))
    · exact mem_append_left _ (sound.calls function box entry)
  | copied opcode items ran =>
    have noLabel : op.opcode ≠ .label := opcode ▸ by decide
    rcases copyPlan_cases walk.facts op with stays | ⟨isCopy, empty | ⟨copy, found, source, dest⟩⟩
    · cases items.symm.trans stays
    · cases items.symm.trans empty
    cases items.symm.trans found
    have reads (value : Value) (isArg : value ∈ op.args) :=
      formed.1 noLabel value (mem_append_left _ isArg)
    have kept := (Ensures.forM sound fun position _ _ kept =>
      scoped_emitCopyItem kept (reads _ source) (reads _ dest) position).of_ok ran
    rw [introduces_of_ne noLabel, ordinary.copies opcode isCopy, toList_none,
      append_nil]
    exact kept.mark true _

theorem scoped_forM (sound : walk.IsScoped bound seen) (remembers : walk.facts.RemembersGuards)
    (ordinary : ∀ op ∈ ops, op.IsOrdinary) (formed : WellFormedFrom seen ops)
    (below : ∀ op ∈ ops, ∀ box ∈ op.introduces, box.id < bound) :
    Ensures True (ops.forM countedStep) walk fun _ after =>
      after.IsScoped bound (seen ++ broughtIn ops) := by
  induction ops generalizing seen walk with
  | nil =>
    rw [broughtIn, flatMap_nil, append_nil]
    exact sound
  | cons op rest ih =>
    have counted : ({ walk with stats := { walk.stats with opsIn := walk.stats.opsIn + 1 } } :
        Peephole).IsScoped bound seen := ⟨sound.facts, sound.calls⟩
    have first : Ensures True (countedStep op) walk fun _ after =>
        after.IsScoped bound (seen ++ op.introduces) ∧ after.facts.RemembersGuards := by
      refine .bind_updateStats (.of_ran fun _ _ ran =>
        ⟨(scoped_step counted remembers (ordinary op mem_cons_self) formed.1 ?_).of_ok ran,
          (remembersGuards_step ?_ op).of_ok ran⟩)
      · exact below op mem_cons_self
      · exact remembers
    rw [broughtIn, flatMap_cons, ← append_assoc]
    exact first.bind fun _ _ kept => ih kept.1 kept.2
      (fun other isOp => ordinary other (mem_cons_of_mem op isOp)) formed.2
      fun other isOp => below other (mem_cons_of_mem op isOp)

/-- A label lists what its boxes stand for. -/
theorem closesInScope_step (sound : walk.IsScoped bound seen) (ordinary : op.IsOrdinary)
    (isLabel : op.opcode = .label)
    (reads : ∀ value ∈ op.uses, ∀ box ∈ value.box?, box ∈ seen) :
    Ensures True (step op) walk fun _ after => ClosesInScope after.facts.output.toList := by
  have isVoid := ordinary.void (isLabel ▸ rfl)
  refine (step_frame walk (.inl isLabel) isVoid).weaken fun _ after emitted => ?_
  rw [emitted, (grows_afterEmit walk.facts isVoid).output, Array.toList_push]
  refine ⟨_, _, rfl, isLabel, fun value isUse => ?_⟩
  obtain ⟨source, isSource, rfl⟩ := mem_uses_resolveOperation ordinary.unguarded isUse
  exact sound.facts.hasInScope_resolve fun box isBox =>
    sound.facts.covered box (reads source isSource box isBox)

end Peephole

theorem BoxSupply.IsAbove.introduces {supply : BoxSupply} {op : Operation}
    (above : supply.IsAbove ops) (isOp : op ∈ ops) :
    ∀ box ∈ op.introduces, box.id < supply.next := by
  intro box isIn
  obtain ⟨uses, result⟩ := above op isOp
  obtain fromLabel | isResult := mem_append.mp isIn
  · split at fromLabel
    · obtain ⟨value, isArg, isBox⟩ := mem_filterMap.mp fromLabel
      exact uses value (mem_append_left _ isArg) box isBox
    · cases fromLabel
  · exact result box (mem_toList.mp isResult)

/-- A simplified trace is well formed: every box is defined at most once, and where it is read it
is a label's or the result of an earlier operation.  If a closing label lists boxes in scope, then
so it does afterwards. -/
theorem Trace.wellFormed_of_simplify {trace output : Trace} {target : Target}
    {stats : PeepholeStats} (formed : WellFormed trace.ops)
    (ordinary : ∀ op ∈ trace.ops, op.IsOrdinary) (above : trace.supply.IsAbove trace.ops)
    (simplified : trace.simplify target = .ok (output, stats)) :
    WellFormed output.ops ∧ (ClosesInScope trace.ops → ClosesInScope output.ops) := by
  have walked {front rest : List Operation} (isOps : trace.ops = front ++ rest) :
      Ensures True (front.forM Peephole.countedStep) (.start target trace) fun _ after =>
        after.IsScoped trace.supply.next (broughtIn front) := by
    have isOp {op : Operation} (isFront : op ∈ front) : op ∈ trace.ops :=
      isOps ▸ mem_append_left _ isFront
    rw [WellFormed, isOps, wellFormedFrom_append] at formed
    exact Peephole.scoped_forM
      ⟨Facts.isScoped_start target trace, fun _ _ entry => by simp [Peephole.start] at entry⟩
      (Facts.remembers_start _ target trace) (fun op isFront => ordinary op (isOp isFront)) formed.1
      fun op isFront => above.introduces (isOp isFront)
  unfold Trace.simplify at simplified
  split at simplified
  · rename_i ran
    cases simplified
    refine ⟨((walked (append_nil _).symm).of_ok ran).facts.formed, ?_⟩
    rintro ⟨front, closing, isOps, isLabel, reads⟩
    have isOp : closing ∈ trace.ops := isOps ▸ mem_append_right _ mem_cons_self
    have closes : Ensures True ((front ++ [closing]).forM Peephole.countedStep)
        (.start target trace) fun _ after => ClosesInScope after.facts.output.toList := by
      rw [show (front ++ [closing]).forM Peephole.countedStep = _ from forM_append]
      refine (walked isOps).bind fun _ walk sound => .bind (.bind_updateStats ?_) fun _ _ => id
      exact Peephole.closesInScope_step ⟨sound.facts, sound.calls⟩ (ordinary closing isOp) isLabel
        reads
    exact closes.of_ok (isOps ▸ ran)
  · cases simplified

/-- A copy of one item within an array, and another name for the counter of a loop. -/
def RenamedCounter.count : Box := ⟨0, .int⟩

namespace RenamedCounter

def array : Box := ⟨1, .ref⟩

def renamed : Box := ⟨2, .int⟩

def item : Box := ⟨3, .int⟩

def label : Operation := { opcode := .label, args := [.box count, .box array] }

def copy : Operation :=
  { opcode := .call,
    args := [.const (.ref 4096), .box array, .box array, .int 0, .int 1, .int 1],
    descriptor := some (.call (.arrayCopy (.ints 1 8))) }

def rename : Operation := { opcode := .sameAs, args := [.box count], result := some renamed }

def jump (counter : Box) : Operation := { opcode := .jump, args := [.box counter, .box array] }

def trace : Trace := { ops := [label, copy, rename, jump renamed], supply := ⟨3⟩ }

def access (opcode : Opcode) (operands : List Value) (result : Option Box) : Operation :=
  { opcode := opcode, args := .box array :: operands, result := result,
    descriptor := some (.array (.ints 1 8)) }

def copied : List Operation :=
  [label, access .getArrayItemGc [.int 0] (some item),
    access .setArrayItemGc [.int 1, .box item] none]

def output : Trace := { ops := copied ++ [jump count], supply := ⟨4⟩ }

def stats : PeepholeStats := { opsIn := 4, opsOut := 4, callsRemoved := 1 }

/-- After the copy only the item's position is known. -/
def afterCopy : Peephole where
  facts :=
    { target := .sse, producers := (∅ : Std.HashMap Box Nat).insert item 1, supply := ⟨4⟩,
      output := copied.toArray, lastRemoved := true }
  stats := { opsIn := 2, callsRemoved := 1 }

/-- From then on another name stands for the counter. -/
def afterRename : Peephole where
  facts := afterCopy.facts.makeEqual renamed (.box count)
  stats := { opsIn := 3, callsRemoved := 1 }

theorem resolveOperation_jump {facts : Facts}
    (replacements : facts.replacements = (∅ : Replacements).insert renamed (.box count)) :
    facts.resolveOperation (jump renamed) = jump count := by
  have size : facts.replacements.size = 1 := by
    rw [replacements, Std.HashMap.size_insert, if_neg Std.HashMap.not_mem_empty]
    rfl
  have resolvesRenamed : facts.resolve (.box renamed) = .box count := by
    rw [Facts.resolve, size, Facts.follow, replacements, Std.HashMap.getElem?_insert_self]
    rfl
  have resolvesArray : facts.resolve (.box array) = .box array := by
    apply Facts.resolve_of_isFinal
    rw [replacements]
    change ((∅ : Replacements).insert renamed (.box count))[array]? = none
    rw [Std.HashMap.getElem?_insert, if_neg (by decide), Std.HashMap.getElem?_empty]
  simp only [Facts.resolveOperation, jump, map_cons, map_nil, resolvesRenamed,
    resolvesArray]
  rfl

theorem simplifies : trace.simplify .sse = .ok (output, stats) := by
  have walks : (trace.ops.forM Peephole.countedStep) (.start .sse trace) =
      Peephole.countedStep (jump renamed) afterRename := rfl
  have ends : Peephole.countedStep (jump renamed) afterRename =
      .ok () { facts := afterRename.facts.append (jump count) .unbounded,
               stats := { opsIn := 4, callsRemoved := 1 } } := by
    rw [← @resolveOperation_jump afterRename.facts rfl]
    rfl
  rw [Trace.simplify, walks, ends]
  rfl

end RenamedCounter

open RenamedCounter in
/-- The copy takes a new box, and the jump passes the counter under its first name. -/
theorem wellFormed_of_renamedCounter : WellFormed output.ops :=
  (Trace.wellFormed_of_simplify (by decide) (by decide) (by decide) simplifies).1

end LinearTrace
