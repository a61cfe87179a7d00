import LinearTrace.Proofs.Facts.Condition
import LinearTrace.Proofs.Peephole.Outcome
import LinearTrace.Proofs.Scope.Labels

/-!
# The scope of a walk

While a trace is simplified, every box seen so far is either in the scope of the output or
replaced, and whatever the tables hand out is in that scope.  So an operation on boxes seen
so far is well formed once its operands are resolved.
-/

namespace LinearTrace

open List Option Facts Operation KnownResults Std Ensures HashMap

variable {position : Nat} {opcode : Opcode} {interval : Interval} {args : List Value}
  {fact : PointerFact}

/-! ## Known results -/

namespace KnownResults

variable {known : KnownResults} {op : Operation} {result value : Value}

theorem lookup_recordAll {entries : List (Opcode × List Value × Value)}
    (found : (known.recordAll entries).lookup opcode args = some value) :
    (∃ entry ∈ entries, entry.2.2 = value) ∨ known.lookup opcode args = some value := by
  induction entries generalizing known with
  | nil => exact .inr found
  | cons entry rest ih =>
    obtain ⟨later, isLater, same⟩ | found := ih found
    · exact .inl ⟨later, mem_cons_of_mem entry isLater, same⟩
    change (known.record entry.1 entry.2.1 entry.2.2).lookup opcode args = some value at found
    rw [lookup, record, getElem?_insertIfNew] at found
    split at found
    · cases found
      exact .inl ⟨entry, mem_cons_self, rfl⟩
    · exact .inr found

/-- The entries hand out the result, or an operand of an operation that is no label. -/
def HandOut (op : Operation) (result : Value) (entries : List (Opcode × List Value × Value)) :
    Prop :=
  ∀ entry ∈ entries, entry.2.2 = result ∨ op.opcode ≠ .label ∧ entry.2.2 ∈ op.args

theorem ensuresValue_reverseForms (known : KnownResults) (op : Operation) (result : Value) :
    EnsuresValue True (known.reverseForms op result) (HandOut op result) := by
  have reads {position : Nat} : EnsuresValue True (op.arg position) (· ∈ op.args) :=
    ensuresValue_arg fun _ => mem_of_getElem?
  have swapped {opcode : Opcode} : EnsuresValue True (do
      let right ← op.arg 1
      let left ← op.arg 0
      return [(opcode, [right, left], result)]) (HandOut op result) := by
    refine reads.bind fun right _ => reads.bind fun left _ entry isEntry => ?_
    cases mem_singleton.mp isEntry
    exact .inl rfl
  have inverse {opcode : Opcode} (noLabel : op.opcode ≠ .label) : EnsuresValue True (do
      return [(opcode, [result], ← op.arg 0)]) (HandOut op result) := by
    refine reads.bind fun operand isOperand entry isEntry => ?_
    cases mem_singleton.mp isEntry
    exact .inr ⟨noLabel, isOperand⟩
  unfold reverseForms
  split
  next opcode =>
    refine reads.bind fun left isLeft => reads.bind fun right isRight entry isEntry => ?_
    simp only [mem_append, mem_cons, not_mem_nil, or_false, List.mem_map] at isEntry
    rw [opcode]
    rcases isEntry with ((rfl | rfl | rfl) | ⟨_, _, rfl⟩) | ⟨_, _, rfl⟩
    · exact .inl rfl
    · exact .inr ⟨by decide, isLeft⟩
    · exact .inr ⟨by decide, isRight⟩
    · exact .inl rfl
    · exact .inl rfl
  next opcode =>
    refine reads.bind fun left isLeft => reads.bind fun right isRight entry isEntry => ?_
    simp only [mem_append, mem_cons, not_mem_nil, or_false, mem_flatMap] at isEntry
    rw [opcode]
    rcases isEntry with (rfl | rfl | rfl) | ⟨_, _, rfl | rfl⟩
    · exact .inr ⟨by decide, isLeft⟩
    · exact .inr ⟨by decide, isLeft⟩
    · exact .inr ⟨by decide, isRight⟩
    · exact .inl rfl
    · exact .inl rfl
  -- the products, conjunctions, disjunctions and sums of floats
  iterate 6 exact swapped
  · refine reads.bind fun left _ => reads.bind fun right _ entry isEntry => ?_
    simp only [mem_flatMap, mem_cons, not_mem_nil, or_false] at isEntry
    rcases isEntry with ⟨_, _, rfl | rfl⟩ <;> exact .inl rfl
  -- the negations and casts
  iterate 5
    next opcode => exact inverse (opcode ▸ by decide)
  · exact fun entry isEntry => absurd isEntry not_mem_nil

end KnownResults

/-- The guard is one on the reference that may still be strengthened. -/
structure Operation.GuardsReference (guard : Operation) (box : Box) : Prop where
  kind : guard.opcode ∈ [.guardNonnull, .guardClass, .guardNonnullClass]
  first : guard.args[0]? = some (.box box)
  movable : guard.resume ≠ .atPosition

theorem Operation.GuardsReference.not_label {guard : Operation} {box : Box}
    (guards : guard.GuardsReference box) : guard.opcode ≠ .label := by
  intro isLabel
  have kind := guards.kind
  simp [isLabel] at kind

namespace Facts

variable {facts : Facts} {bound : Nat} {seen : List Box} {op : Operation} {box : Box}
  {value : Value}

/-- The boxes in scope at the end of the output. -/
def scope (facts : Facts) : List Box :=
  broughtIn facts.output.toList

/-- A box of the value is in the scope of the output. -/
def HasInScope (facts : Facts) (value : Value) : Prop :=
  ∀ box ∈ value.box?, box ∈ facts.scope

/-- The box is in the scope of the output or stands for another value. -/
def Covers (facts : Facts) (box : Box) : Prop :=
  box ∈ facts.scope ∨ box ∈ facts.replacements

/-- A box of the value is covered. -/
def CoversValue (facts : Facts) (value : Value) : Prop :=
  ∀ box ∈ value.box?, facts.Covers box

/-- Every guard that a reference remembers was emitted for it. -/
abbrev RemembersGuards (facts : Facts) : Prop :=
  facts.Remembers fun guard box _ => guard.GuardsReference box

/-- The output is well formed, every box seen so far is covered, and the tables hand out values
in scope.  Boxes below the bound belong to the input. -/
structure IsScoped (bound : Nat) (seen : List Box) (facts : Facts) : Prop where
  formed : WellFormed facts.output.toList
  origin : ∀ box ∈ facts.scope, box ∈ seen ∨ bound ≤ box.id
  below : ∀ box ∈ facts.scope, box.id < facts.supply.next
  above : bound ≤ facts.supply.next
  replaced : ∀ (box : Box) (value : Value), facts.replacements[box]? = some value →
    facts.HasInScope value
  known : ∀ opcode args value, facts.known.lookup opcode args = some value →
    facts.HasInScope value
  covered : ∀ box ∈ seen, facts.Covers box

theorem isScoped_start (target : Target) (trace : Trace) :
    (start target trace).IsScoped trace.supply.next [] where
  formed := trivial
  origin box inScope := absurd inScope not_mem_nil
  below box inScope := absurd inScope not_mem_nil
  above := Nat.le_refl _
  replaced box value entry := by simp [start] at entry
  known opcode args value entry := by simp [start, KnownResults.lookup] at entry
  covered box isSeen := absurd isSeen not_mem_nil

/-! ## Resolving -/

theorem hasInScope_const (facts : Facts) (literal : Const) : facts.HasInScope (.const literal) :=
  fun box isBox => absurd isBox (not_mem_none box)

namespace IsScoped

theorem follow_cases (sound : facts.IsScoped bound seen) (steps : Nat) (value : Value) :
    follow facts.replacements steps value = value ∨
      facts.HasInScope (follow facts.replacements steps value) := by
  induction steps generalizing value with
  | zero => cases value <;> exact .inl rfl
  | succ steps ih =>
    cases value with
    | const literal => exact .inl rfl
    | box box =>
      rw [follow]
      cases entry : facts.replacements[box]? with
      | none => exact .inl rfl
      | some next =>
        dsimp only
        obtain same | inScope := ih next
        · rw [same]
          exact .inr (sound.replaced box next entry)
        · exact .inr inScope

theorem hasInScope_follow (sound : facts.IsScoped bound seen) (steps : Nat)
    (inScope : facts.HasInScope value) :
    facts.HasInScope (follow facts.replacements steps value) := by
  obtain same | followed := sound.follow_cases steps value
  · exact same.symm ▸ inScope
  · exact followed

theorem hasInScope_resolve (sound : facts.IsScoped bound seen)
    (covered : facts.CoversValue value) : facts.HasInScope (facts.resolve value) := by
  unfold resolve
  cases value with
  | const literal =>
    rw [follow_const]
    exact hasInScope_const facts literal
  | box source =>
    obtain inScope | isReplaced := covered source rfl
    · exact sound.hasInScope_follow _ (fun box isBox => some.inj isBox ▸ inScope)
    -- a replaced box takes a first step, which ends in scope
    have entered : ∀ box ∈ [source], box ∈ facts.replacements := fun box isSource =>
      (mem_singleton.mp isSource).symm ▸ isReplaced
    have entries : 1 ≤ facts.replacements.size :=
      Replacements.length_le_size (pairwise_singleton _ source) entered
    obtain ⟨steps, size⟩ := Nat.exists_eq_add_of_le' entries
    obtain ⟨next, entry⟩ := isSome_iff_exists.mp (mem_iff_isSome_getElem?.mp isReplaced)
    rw [size, follow, entry]
    exact sound.hasInScope_follow steps (sound.replaced source next entry)

end IsScoped

/-! ## Learning -/

theorem exists_entry_of_getD (isLast : (facts.pointers.getD box {}).lastGuard = some position) :
    ∃ fact, facts.pointers[box]? = some fact ∧ fact.lastGuard = some position := by
  rw [getD_eq_getD_getElem?] at isLast
  cases entry : facts.pointers[box]? with
  | none =>
    rw [entry] at isLast
    cases isLast
  | some fact =>
    rw [entry] at isLast
    exact ⟨fact, rfl, isLast⟩

theorem exists_entry_of_lastGuard (isLast : (facts.pointer value).lastGuard = some position) :
    ∃ (box : Box) (fact : PointerFact), facts.pointers[box]? = some fact ∧
      fact.lastGuard = some position := by
  unfold pointer at isLast
  split at isLast
  · split at isLast
    · cases isLast
    · split at isLast <;> cases isLast
  · cases isLast
  · exact ⟨_, exists_entry_of_getD isLast⟩

namespace IsScoped

theorem of_same {other : Facts} (sound : facts.IsScoped bound seen)
    (formed : WellFormed other.output.toList) (scope : other.scope = facts.scope)
    (supply : other.supply = facts.supply)
    (replacements : other.replacements = facts.replacements) (known : other.known = facts.known) :
    other.IsScoped bound seen where
  formed := formed
  origin := scope ▸ sound.origin
  below := by
    rw [scope, supply]
    exact sound.below
  above := supply ▸ sound.above
  replaced := by
    unfold HasInScope
    rw [scope, replacements]
    exact sound.replaced
  known := by
    unfold HasInScope
    rw [scope, known]
    exact sound.known
  covered := by
    unfold Covers
    rw [scope, replacements]
    exact sound.covered

theorem extend (sound : facts.IsScoped bound seen) {boxes : List Box}
    (covers : ∀ box ∈ boxes, facts.Covers box) : facts.IsScoped bound (seen ++ boxes) where
  formed := sound.formed
  origin box inScope := (sound.origin box inScope).imp_left (mem_append_left boxes)
  below := sound.below
  above := sound.above
  replaced := sound.replaced
  known := sound.known
  covered box isSeen := (mem_append.mp isSeen).elim (sound.covered box) (covers box)

/-- A box that belongs to no operation of the input need not be remembered. -/
theorem forget (sound : facts.IsScoped bound (seen ++ [box])) (above : bound ≤ box.id) :
    facts.IsScoped bound seen where
  formed := sound.formed
  origin other inScope := by
    obtain isSeen | isAbove := sound.origin other inScope
    · obtain isSeen | isLast := mem_append.mp isSeen
      · exact .inl isSeen
      · exact .inr (mem_singleton.mp isLast ▸ above)
    · exact .inr isAbove
  below := sound.below
  above := sound.above
  replaced := sound.replaced
  known := sound.known
  covered other isSeen := sound.covered other (mem_append_left _ isSeen)

section

variable (sound : facts.IsScoped bound seen)

include sound

theorem insert (box : Box) (inScope : facts.HasInScope value) :
    ({ facts with replacements := facts.replacements.insert box value } : Facts).IsScoped bound
      seen where
  formed := sound.formed
  origin := sound.origin
  below := sound.below
  above := sound.above
  replaced other found entry := by
    rcases eq_or_getElem?_of_insert entry with ⟨_, rfl⟩ | ⟨_, entry⟩
    · exact inScope
    · exact sound.replaced other found entry
  known := sound.known
  covered other isSeen := (sound.covered other isSeen).imp_right fun isReplaced =>
    mem_insert.mpr (.inr isReplaced)

theorem makeEqual (box : Box)
    (covered : facts.CoversValue value) : (facts.makeEqual box value).IsScoped bound seen := by
  unfold Facts.makeEqual
  dsimp only
  split
  · exact sound
  · exact sound.insert box (sound.hasInScope_resolve covered)

theorem covers_makeEqual (box : Box)
    (covered : facts.CoversValue value) : (facts.makeEqual box value).Covers box := by
  unfold Facts.makeEqual
  dsimp only
  split
  next same =>
    have inScope := sound.hasInScope_resolve covered
    rw [same] at inScope
    exact .inl (inScope box rfl)
  · exact .inr mem_insert_self

theorem makeConstant (value : Value) (literal : Const) :
    (facts.makeConstant value literal).IsScoped bound seen := by
  unfold Facts.makeConstant
  split
  · exact sound
  next box _ =>
    have inserted := sound.insert box (hasInScope_const facts literal)
    exact inserted.of_same inserted.formed rfl rfl rfl rfl

theorem updatePointer (value : Value)
    (update : PointerFact → PointerFact) :
    (facts.updatePointer value update).IsScoped bound seen := by
  rw [updatePointer_eq]
  exact sound.of_same sound.formed rfl rfl rfl rfl

end

end IsScoped

theorem mem_replacements_of_resolve_ne (moved : facts.resolve (.box box) ≠ .box box) :
    box ∈ facts.replacements :=
  Decidable.byContradiction fun absent =>
    moved (resolve_of_isFinal (getElem?_eq_none absent))

theorem covers_makeConstant (facts : Facts) (box : Box) (literal : Const) :
    (facts.makeConstant (.box box) literal).Covers box := by
  unfold Facts.makeConstant
  split
  next known resolved => exact .inr (mem_replacements_of_resolve_ne (resolved ▸ Value.noConfusion))
  rename_i other resolved
  refine .inr ?_
  by_cases same : other = box
  · subst same
    exact mem_insert_self
  · have moved : facts.resolve (.box box) ≠ .box box := fun stays =>
      same (Value.box.inj (resolved.symm.trans stays))
    exact mem_insert.mpr (.inr (mem_replacements_of_resolve_ne moved))

namespace IsScoped

theorem keptByNarrowing (bound : Nat) (seen : List Box) : KeptByNarrowing (IsScoped bound seen) where
  intervals _ _ sound := sound.of_same sound.formed rfl rfl rfl rfl
  makeWord _ _ _ sound := sound.makeConstant _ _

/-- A guard may be exchanged for another one that reads no more. -/
theorem replaceOperation (sound : facts.IsScoped bound seen) {old new : Operation}
    (found : facts.output[position]? = some old) (wasGuard : old.opcode ≠ .label)
    (isGuard : new.opcode ≠ .label) (sameResult : new.result = old.result)
    (reads : ∀ value ∈ new.uses, value ∈ old.uses ∨ ∃ literal, value = .const literal) :
    ({ facts with output := facts.output.setIfInBounds position new } : Facts).IsScoped
      bound seen := by
  have introduces : new.introduces = old.introduces := by
    rw [introduces_of_ne wasGuard, introduces_of_ne isGuard, sameResult]
  have listed : facts.output.toList[position]? = some old := by
    rw [Array.getElem?_toList, found]
  have formedIn : ∀ scope, old.FormedIn scope → new.FormedIn scope := by
    rintro scope ⟨oldReads, fresh⟩
    refine ⟨fun _ value isUse box isBox => ?_, sameResult ▸ fresh⟩
    obtain isOld | ⟨literal, rfl⟩ := reads value isUse
    · exact oldReads wasGuard value isOld box isBox
    · exact absurd isBox (not_mem_none box)
  refine sound.of_same ?_ ?_ rfl rfl rfl
  · rw [Array.toList_setIfInBounds]
    exact sound.formed.set listed introduces formedIn
  · unfold scope
    rw [Array.toList_setIfInBounds]
    exact broughtIn_set listed introduces

end IsScoped

/-! ## Emitting -/

/-- The operation may be emitted: it reads covered boxes, unless it is a label, and defines a box
that is new and below the supply, if any. -/
structure Accepts (facts : Facts) (op : Operation) : Prop where
  reads : op.opcode ≠ .label → ∀ value ∈ op.uses, facts.CoversValue value
  fresh : ∀ box ∈ op.result, box ∉ facts.scope
  below : ∀ box ∈ op.introduces, box.id < facts.supply.next
  unguarded : op.isGuard = false → op.snapshot = none
  void : op.opcode = .label ∨ op.isGuard = true → op.result = none

theorem coversValue_of_arg (accepts : facts.Accepts op) (noLabel : op.opcode ≠ .label)
    (isArg : value ∈ op.args) : facts.CoversValue value :=
  accepts.reads noLabel value (mem_append_left _ isArg)

theorem mem_uses_resolveOperation (unguarded : op.isGuard = false → op.snapshot = none)
    (isUse : value ∈ (facts.resolveOperation op).uses) :
    ∃ source ∈ op.uses, value = facts.resolve source := by
  obtain isArg | isFail := mem_append.mp isUse
  · obtain ⟨source, isSource, rfl⟩ := List.mem_map.mp isArg
    exact ⟨source, mem_append_left _ isSource, rfl⟩
  unfold failArgs resolveOperation at isFail
  cases snapshot : op.snapshot with
  | none => simp [snapshot] at isFail
  | some frames =>
    have isGuard : op.isGuard = true := by
      cases guards : op.isGuard with
      | true => rfl
      | false => cases snapshot.symm.trans (unguarded guards)
    rw [if_pos isGuard, snapshot] at isFail
    rw [map_some] at isFail
    dsimp only at isFail
    rw [Snapshot.values_rename] at isFail
    obtain ⟨source, isSource, rfl⟩ := List.mem_map.mp isFail
    refine ⟨source, mem_append_right _ ?_, rfl⟩
    unfold failArgs
    rw [snapshot]
    exact isSource

theorem IsScoped.mem_introduces_resolveOperation (sound : facts.IsScoped bound seen)
    (isIn : box ∈ (facts.resolveOperation op).introduces) :
    box ∈ op.introduces ∨ box ∈ facts.scope := by
  obtain fromLabel | isResult := mem_append.mp isIn
  · split at fromLabel
    next isLabel =>
      obtain ⟨resolved, isResolved, isBox⟩ := mem_filterMap.mp fromLabel
      obtain ⟨source, isSource, rfl⟩ := List.mem_map.mp isResolved
      obtain same | inScope := sound.follow_cases facts.replacements.size source
      · have isSame : facts.resolve source = source := same
        rw [isSame] at isBox
        cases Value.mem_box?.mp isBox
        exact .inl (mem_introduces_of_label isLabel isSource)
      · exact .inr (inScope box isBox)
    · cases fromLabel
  · exact .inl (mem_introduces_of_result (mem_toList.mp isResult))

theorem output_append (facts : Facts) (op : Operation) (interval : Interval) :
    (facts.append op interval).output = facts.output.push op := by
  unfold append
  split <;> rfl

theorem scope_append (facts : Facts) (op : Operation) (interval : Interval) :
    (facts.append op interval).scope = facts.scope ++ op.introduces := by
  unfold scope
  rw [output_append, Array.toList_push, broughtIn_append]
  simp [broughtIn]

theorem replacements_append (facts : Facts) (op : Operation) (interval : Interval) :
    (facts.append op interval).replacements = facts.replacements := by
  unfold append
  split <;> rfl

theorem supply_append (facts : Facts) (op : Operation) (interval : Interval) :
    (facts.append op interval).supply = facts.supply := by
  unfold append
  split <;> rfl

theorem lookup_append (found : (facts.append op interval).known.lookup opcode args = some value) :
    (∃ result, op.result = some result ∧ value = .box result) ∨
      facts.known.lookup opcode args = some value := by
  unfold append at found
  split at found
  next result isResult =>
    change (if isReusable op then facts.known.record op.opcode op.args (.box result)
      else facts.known).lookup opcode args = some value at found
    split at found
    · rw [KnownResults.lookup, KnownResults.record, getElem?_insertIfNew] at found
      split at found
      · cases found
        exact .inl ⟨result, isResult, rfl⟩
      · exact .inr found
    · exact .inr found
  · exact .inr found

theorem lastGuard_allocationFact? (isAllocation : allocationFact? op = some fact) :
    fact.lastGuard = none := by
  unfold allocationFact? at isAllocation
  split at isAllocation
  · obtain ⟨size, _, rfl⟩ := map_eq_some_iff.mp isAllocation
    rfl
  · obtain ⟨size, _, rfl⟩ := map_eq_some_iff.mp isAllocation
    rfl
  · cases isAllocation

theorem lastGuard_append (entry : (facts.append op interval).pointers[box]? = some fact)
    (isLast : fact.lastGuard = some position) : facts.pointers[box]? = some fact := by
  unfold append at entry
  split at entry
  next result isResult =>
    dsimp only [learnResult] at entry
    split at entry
    next allocated isAllocated =>
      rcases eq_or_getElem?_of_insert entry with ⟨_, rfl⟩ | ⟨_, entry⟩
      · rw [lastGuard_allocationFact? isAllocated] at isLast
        cases isLast
      · exact entry
    · exact entry
  · exact entry

theorem IsScoped.formedIn_resolveOperation (sound : facts.IsScoped bound seen)
    (accepts : facts.Accepts op) : (facts.resolveOperation op).FormedIn facts.scope := by
  refine ⟨fun noLabel value isUse box isBox => ?_, accepts.fresh⟩
  obtain ⟨source, isSource, rfl⟩ := mem_uses_resolveOperation accepts.unguarded isUse
  exact sound.hasInScope_resolve (accepts.reads noLabel source isSource) box isBox

theorem covers_append_resolveOperation (facts : Facts) (op : Operation) (interval : Interval) :
    ∀ box ∈ op.introduces, (facts.append (facts.resolveOperation op) interval).Covers box := by
  intro box isIn
  unfold Covers
  rw [scope_append, replacements_append]
  obtain fromLabel | isResult := mem_append.mp isIn
  · split at fromLabel
    next isLabel =>
      obtain ⟨source, isSource, isBox⟩ := mem_filterMap.mp fromLabel
      cases Value.mem_box?.mp isBox
      by_cases stays : facts.resolve (.box box) = .box box
      · refine .inl (mem_append_right _ (mem_introduces_of_label isLabel ?_))
        exact List.mem_map.mpr ⟨_, isSource, stays⟩
      · exact .inr (mem_replacements_of_resolve_ne stays)
    · cases fromLabel
  · exact .inl (mem_append_right _ (mem_introduces_of_result (mem_toList.mp isResult)))

theorem RemembersGuards.append (remembers : facts.RemembersGuards) (op : Operation)
    (interval : Interval) : (facts.append op interval).RemembersGuards :=
  remembers.push (replacements_append facts op interval ▸ remembers.acyclic)
    (output_append facts op interval) fun _ _ _ => lastGuard_append

theorem IsScoped.append (sound : facts.IsScoped bound seen) (accepts : facts.Accepts op)
    (interval : Interval) :
    (facts.append (facts.resolveOperation op) interval).IsScoped bound (seen ++ op.introduces) := by
  have grows {value : Value} (inScope : facts.HasInScope value) :
      (facts.append (facts.resolveOperation op) interval).HasInScope value := fun box isBox => by
    rw [scope_append]
    exact mem_append_left _ (inScope box isBox)
  constructor
  · rw [output_append, Array.toList_push, wellFormed_concat]
    exact ⟨sound.formed, sound.formedIn_resolveOperation accepts⟩
  · intro box inScope
    rw [scope_append] at inScope
    have old (inScope : box ∈ facts.scope) : box ∈ seen ++ op.introduces ∨ bound ≤ box.id :=
      (sound.origin box inScope).imp_left (mem_append_left _)
    obtain inScope | isIn := mem_append.mp inScope
    · exact old inScope
    · obtain isIn | inScope := sound.mem_introduces_resolveOperation isIn
      · exact .inl (mem_append_right _ isIn)
      · exact old inScope
  · intro box inScope
    rw [scope_append] at inScope
    rw [supply_append]
    obtain inScope | isIn := mem_append.mp inScope
    · exact sound.below box inScope
    · obtain isIn | inScope := sound.mem_introduces_resolveOperation isIn
      · exact accepts.below box isIn
      · exact sound.below box inScope
  · rw [supply_append]
    exact sound.above
  · intro box value entry
    rw [replacements_append] at entry
    exact grows (sound.replaced box value entry)
  · intro opcode args value found
    obtain ⟨result, isResult, rfl⟩ | found := lookup_append found
    · intro box isBox
      cases isBox
      rw [scope_append]
      exact mem_append_right _ (mem_introduces_of_result isResult)
    · exact grows (sound.known opcode args value found)
  · intro box isSeen
    obtain isSeen | isIn := mem_append.mp isSeen
    · unfold Covers
      rw [scope_append, replacements_append]
      exact (sound.covered box isSeen).imp_left (mem_append_left _)
    · exact covers_append_resolveOperation facts op interval box isIn

/-- An operation with a result that is folded or reused is no label. -/
theorem Accepts.introduces_of_result (accepts : facts.Accepts op) (isResult : op.result = some box) :
    op.introduces = [box] := by
  have noLabel : op.opcode ≠ .label := fun isLabel => by
    cases isResult.symm.trans (accepts.void (.inl isLabel))
  rw [introduces_of_ne noLabel, isResult]
  rfl

theorem Accepts.introduces_of_isGuard (accepts : facts.Accepts op) (isGuard : op.isGuard) :
    op.introduces = [] := by
  rw [introduces_of_ne (ne_label_of_isGuard isGuard),
    accepts.void (.inr isGuard)]
  rfl

section

variable (sound : facts.IsScoped bound seen)

include sound

/-- Whatever becomes of an accepted operation, its boxes are covered afterwards. -/
theorem IsScoped.perform (accepts : facts.Accepts op) :
    EnsuresValue True (facts.emission (facts.resolveOperation op)) fun emission =>
      (facts.perform (facts.resolveOperation op) emission).IsScoped bound
        (seen ++ op.introduces) := by
  have constant {result : Box} (isResult : op.result = some result) (literal : Const) :
      (facts.makeConstant (.box result) literal).IsScoped bound (seen ++ op.introduces) := by
    rw [accepts.introduces_of_result isResult]
    exact (sound.makeConstant _ literal).extend fun box isResult =>
      mem_singleton.mp isResult ▸ covers_makeConstant facts _ literal
  unfold emission
  split
  · exact sound.append accepts _
  rename_i result isResult
  split
  next emission reused =>
    unfold reuse? at reused
    split at reused
    · split at reused
      · cases reused
        exact constant isResult _
      obtain ⟨value, known, rfl⟩ := map_eq_some_iff.mp reused
      have covered : facts.CoversValue value := fun box isBox =>
        .inl (sound.known _ _ value known box isBox)
      rw [accepts.introduces_of_result isResult]
      exact (sound.makeEqual result covered).extend fun box isBox =>
        mem_singleton.mp isBox ▸ sound.covers_makeEqual result covered
    · cases reused
  · split
    · refine EnsuresValue.bind (.of_ok fun _ found => found) fun interval _ => ?_
      split
      · exact constant isResult _
      · exact sound.append accepts _
    · exact sound.append accepts _

theorem IsScoped.emit (accepts : facts.Accepts op) :
    Ensures True (Facts.emit op) facts fun _ after =>
      after.IsScoped bound (seen ++ op.introduces) := by
  exact bind_get (bind_lift ((sound.perform accepts).weaken fun _ kept => kept))

/-- The reverse forms of an emitted operation hand out boxes in scope. -/
theorem IsScoped.recordReverseOfLast :
    Ensures True Facts.recordReverseOfLast facts fun _ after => after.IsScoped bound seen := by
  refine bind_get ?_
  split
  next op isLast =>
    have isOp : op ∈ facts.output.toList := Array.mem_toList_iff.mpr (Array.mem_of_back? isLast)
    refine bind_lift ?_
    unfold recordReverse
    split
    next result isResult =>
      refine EnsuresValue.bind (ensuresValue_reverseForms _ op _) fun entries hand => ?_
      refine ⟨sound.formed, sound.origin, sound.below, sound.above, sound.replaced, ?_,
        sound.covered⟩
      intro opcode args value found
      obtain ⟨entry, isEntry, rfl⟩ | found := lookup_recordAll found
      · intro box isBox
        obtain isResultValue | ⟨noLabel, isArg⟩ := hand entry isEntry
        · rw [isResultValue] at isBox
          cases isBox
          exact mem_flatMap.mpr ⟨op, isOp, mem_introduces_of_result isResult⟩
        · exact sound.formed.mem_scope isOp noLabel (mem_append_left _ isArg) isBox
      · exact sound.known opcode args value found
    · exact sound
  · exact sound

theorem IsScoped.freshBox (type : ValueType) :
    (facts.freshBox type).2.IsScoped bound seen :=
  ⟨sound.formed, sound.origin, fun box inScope => Nat.lt_succ_of_lt (sound.below box inScope),
    Nat.le_succ_of_le sound.above, sound.replaced, sound.known, sound.covered⟩

end

end Facts

end LinearTrace
