import LinearTrace.Proofs.Peephole.WellFormed

/-!
# Guards that resume at their own position

Such a guard is not overwritten: wherever it stands in the output, it stays until the end.  It is
still merged into an earlier guard on its reference, if that one may be strengthened.  All others
are dropped because the facts settle them, or emitted as they are.
-/

namespace LinearTrace

open List Peephole

section

open Peephole

variable {target : Target} {trace output : Trace} {stats : PeepholeStats} {origin position : Nat}
  {op guard : Operation} {walk next final : Peephole}

theorem Peephole.Contributes.appends_or_merges (contributes : Contributes op walk next) :
    walk.facts.output.toList <+: next.facts.output.toList ∨
      ∃ position earlier stronger, walk.facts.output[position]? = some earlier ∧
        earlier.resume ≠ .atPosition ∧
          next.facts.output = walk.facts.output.setIfInBounds position stronger := by
  cases contributes with
  | dropped output _ =>
    rw [output]
    exact .inl prefix_rfl
  | kept output _ _ =>
    rw [output, Array.toList_push]
    exact .inl (prefix_append _ _)
  | copied _ _ output _ _ =>
    rw [output]
    exact .inl (prefix_append _ _)
  | reduced grows _ => exact .inl grows
  | merged found movable output _ => exact .inr ⟨_, _, _, found, movable, output⟩

namespace Trace

section

variable (step : StepAt target trace origin op walk next)

include step

theorem StepAt.size_le : walk.facts.output.size ≤ next.facts.output.size := by
  rcases step.contributes.appends_or_merges with grows | ⟨_, _, _, _, _, output⟩
  · exact grows.length_le
  · rw [output, Array.size_setIfInBounds]
    exact le_rfl

/-- A guard that resumes at its position is not overwritten. -/
theorem StepAt.keeps_own (own : guard.resume = .atPosition)
    (stands : walk.facts.output[position]? = some guard) :
    next.facts.output[position]? = some guard := by
  rcases step.contributes.appends_or_merges with grows | ⟨_, _, _, found, movable, output⟩
  · rw [← Array.getElem?_toList] at stands ⊢
    obtain ⟨inside, _⟩ := List.getElem?_eq_some_iff.mp stands
    rw [prefix_iff_getElem?.mp grows position inside, ← stands]
    exact (getElem?_eq_getElem inside).symm
  · rw [output, Array.getElem?_setIfInBounds_ne]
    · exact stands
    · rintro rfl
      cases found.symm.trans stands
      exact movable own

theorem StepAt.stands (own : guard.resume = .atPosition)
    (appended : next.facts.output = walk.facts.output.push guard)
    (walked : trace.walkTo target trace.ops.length = some final) :
    trace.EmittedFor target origin walk.facts.output.size ∧
      final.facts.output[walk.facts.output.size]? = some guard := by
  constructor
  · refine ⟨walk, next, step.walked, step.walkedNext, le_rfl, ?_⟩
    rw [appended, Array.size_push]
    exact Nat.lt_succ_self _
  refine walk_induction (motive := fun _ final =>
    final.facts.output[walk.facts.output.size]? = some guard) le_rfl ?_ ?_ step.inside walked
  · intro first walkedFirst
    cases step.walkedNext.symm.trans walkedFirst
    rw [appended, Array.getElem?_push_size]
  · intro _ _ _ _ _ step stands
    exact step.keeps_own own stands

end

theorem EmittedFor.lt_of_lt {later after : Nat} (ordered : origin < later)
    (emitted : trace.EmittedFor target origin position)
    (emittedLater : trace.EmittedFor target later after) : position < after := by
  obtain ⟨_, next, _, walkedNext, _, below⟩ := emitted
  obtain ⟨walk, last, walked, walkedLast, above, inside⟩ := emittedLater
  rcases Nat.lt_or_ge later trace.ops.length with isInside | beyond
  · have grows := walk_induction (motive := fun _ walk => next.facts.output.size ≤
      walk.facts.output.size) (Nat.le_of_lt isInside) (fun walk walked => by
        cases walkedNext.symm.trans walked
        exact le_rfl) (fun _ _ _ _ _ step grown => grown.trans step.size_le) ordered walked
    omega
  · rw [walkTo, take_of_length_le beyond] at walked
    rw [walkTo, take_of_length_le (Nat.le_succ_of_le beyond)] at walkedLast
    cases walked.symm.trans walkedLast
    omega

/-- A guard that resumes at its position is dropped because the facts settle it, or stands in the
output with its own opcode, descriptor and snapshot, unless an earlier guard absorbs it. -/
theorem own_position (simplified : trace.simplify target = .ok (output, stats))
    (found : trace.ops[origin]? = some guard) (isGuard : guard.isGuard = true)
    (own : guard.resume = .atPosition) :
    ∃ walk next, StepAt target trace origin guard walk next ∧
      (¬ walk.facts.Absorbs guard ↔
        (walk.facts.Settles guard ∧ next.facts.output = walk.facts.output ∧
            next.stats.guardsRemoved = walk.stats.guardsRemoved + 1) ∨
          ∃ position, trace.EmittedFor target origin position ∧
            output.ops[position]? = some (walk.facts.resolveOperation guard) ∧
              ∀ later after, origin < later → trace.EmittedFor target later after →
                position < after) := by
  obtain ⟨final, walked, isOutput⟩ := walkTo_of_simplify simplified
  obtain ⟨walk, next, step⟩ := exists_stepAt walked found
  have guarded : GuardStep guard walk.counted next :=
    (guardStep_step isGuard).of_ok (step_of_handle step.handled)
  refine ⟨walk, next, step, ?_, ?_⟩
  · intro alone
    cases guarded with
    | removed settles _ => exact Or.inl ⟨settles, rfl, rfl⟩
    | kept _ learned =>
      have resolvedOwn : (walk.facts.resolveOperation guard).resume = .atPosition := own
      obtain ⟨emitted, stands⟩ := step.stands resolvedOwn learned.output walked
      refine Or.inr ⟨_, emitted, ?_, fun later after ordered => emitted.lt_of_lt ordered⟩
      rw [isOutput, Array.getElem?_toList]
      exact stands
    | merged absorbs _ _ _ _ _ _ _ _ => exact absurd absorbs alone
  · intro outcome absorbs
    cases guarded with
    | removed _ alone => exact alone absorbs
    | kept alone _ => exact alone absorbs
    | merged _ _ _ _ _ _ _ _ learned =>
      rcases outcome with ⟨_, _, counted⟩ | ⟨position, ⟨_, _, walkedTo, walkedNext, above, below⟩, _⟩
      · exact absurd counted.symm (Nat.succ_ne_self _)
      · cases step.walked.symm.trans walkedTo
        cases step.walkedNext.symm.trans walkedNext
        rw [learned.output, Facts.strengthen, Array.size_setIfInBounds] at below
        exact absurd above (Nat.not_le_of_lt below)

/-- Wherever a walk has come, a guard that a reference remembers stands at its position in the
output, guards that reference, and does not resume at its own position. -/
theorem lastGuard_of_walkTo {count : Nat} {box : Box} {fact : PointerFact} {position : Nat}
    (walked : trace.walkTo target count = some walk)
    (known : walk.facts.pointers[box]? = some fact) (last : fact.lastGuard = some position) :
    ∃ guard, walk.facts.output[position]? = some guard ∧
      guard.opcode ∈ [.guardNonnull, .guardClass, .guardNonnullClass] ∧
        guard.args[0]? = some (.box box) ∧ guard.resume ≠ .atPosition := by
  have remembers : walk.facts.RemembersGuards :=
    facts_of_walkTo (Facts.remembers_start _ target trace)
      (fun op _ _ remembers => remembersGuards_step remembers op) walked
  obtain ⟨guard, found, guards⟩ := remembers.remembered box fact position known last
  exact ⟨guard, found, guards.kind, guards.first, guards.movable⟩

end Trace

end

/-! ## Two guards on one reference -/

namespace GuardedTwice

def subject : Box := ⟨0, .ref⟩

def nonnull (resume : Resume) : Operation :=
  { opcode := .guardNonnull, args := [.box subject], descriptor := some (.guard resume) }

def ofClass : Operation :=
  { opcode := .guardClass, args := [.box subject, .int 4096],
    descriptor := some (.guard .atPosition) }

def merged : Operation :=
  { opcode := .guardNonnullClass, args := [.box subject, .int 4096],
    descriptor := some (.guard .guard) }

def trace (resume : Resume) : Trace := { ops := [nonnull resume, ofClass] }

/-- What is known of the reference after the first guard. -/
def known (resume : Resume) : PointerFact :=
  if resume = .atPosition then ({} : PointerFact).withNonnull
  else ({} : PointerFact).withNonnull.withLastGuard 0

def guarded (resume : Resume) : Facts :=
  { target := .sse
    pointers := (∅ : Std.HashMap Box PointerFact).insert subject (known resume)
    output := #[nonnull resume] }

theorem guards (resume : Resume) : countedStep (nonnull resume) (.start .sse (trace resume)) =
      .ok () { facts := guarded resume, stats := { opsIn := 1 } } := by
  have unknown : (∅ : Std.HashMap Box PointerFact).getD subject {} = {} := Std.HashMap.getD_empty
  change (if ((∅ : Std.HashMap Box PointerFact).getD subject {}).isNonnull = true then _
    else if ((∅ : Std.HashMap Box PointerFact).getD subject {}).isNull = true then _ else _ :
      PeepholeM Unit) _ = _
  rw [unknown]
  change EStateM.Result.ok () ({
    facts := { guarded resume with
      pointers := (∅ : Std.HashMap Box PointerFact).insert subject (if resume = .atPosition then
          ((∅ : Std.HashMap Box PointerFact).getD subject {}).withNonnull
        else ((∅ : Std.HashMap Box PointerFact).getD subject {}).withNonnull.withLastGuard 0) }
    stats := { opsIn := 1 } } : Peephole) = _
  rw [unknown]
  rfl

/-- The second guard stays if the first one resumes at its own position. -/
def simplified (resume : Resume) : List Operation :=
  if resume = .atPosition then [nonnull resume, ofClass] else [merged]

theorem simplifies (resume : Resume) : (trace resume).simplify .sse =
    .ok ({ ops := simplified resume },
      { opsIn := 2, opsOut := (simplified resume).length,
        guardsMerged := if resume = .atPosition then 0 else 1 }) := by
  have pointer : (guarded resume).pointer ((guarded resume).resolve (.box subject)) =
      known resume := Std.HashMap.getD_insert_self
  have noClass : (known resume).knownClass = none := by cases resume <;> rfl
  have isSubject : ofClass.arg 0 = .ok (.box subject) := rfl
  have isClass : ofClass.arg 1 = .ok (.int 4096) := rfl
  have address : ((guarded resume).resolve (.int 4096)).const?.bind Const.address? = some 4096 :=
    rfl
  have step : countedStep ofClass { facts := guarded resume, stats := { opsIn := 1 } } = .ok () {
        facts := { guarded resume with
          pointers := (guarded resume).pointers.insert subject
            (((guarded resume).pointers.getD subject {}).withClass 4096)
          output := (simplified resume).toArray }
        stats := { opsIn := 2, guardsMerged := if resume = .atPosition then 0 else 1 } } := by
    change guardClass ofClass { facts := guarded resume, stats := { opsIn := 2 } } = _
    simp only [guardClass, currentFacts_bind, lift_bind isSubject,
      lift_bind isClass, address, pointer, noClass]
    cases resume <;> rfl
  have isOps : (trace resume).ops = [nonnull resume, ofClass] := rfl
  rw [Trace.simplify, isOps, forM_of_ok (guards resume), forM_of_ok step]
  cases resume <;> rfl

end GuardedTwice

open GuardedTwice in
/-- A guard against null takes over the guard for a class, although that one resumes at its own
position. -/
theorem simplify_guardedTwice_merges :
    (GuardedTwice.trace .guard).simplify .sse =
        .ok ({ ops := [merged] }, { opsIn := 2, opsOut := 1, guardsMerged := 1 }) ∧
      ofClass ∈ (GuardedTwice.trace .guard).ops ∧ ofClass.isGuard = true ∧
      ofClass.resume = .atPosition ∧ ofClass.opcode ∉ [merged].map Operation.opcode :=
  ⟨simplifies .guard, by decide, rfl, rfl, by decide⟩

open GuardedTwice in
/-- Two guards on a reference that both resume at their own positions both stay. -/
theorem own_position_guardedTwice :
    ∃ output stats walk next,
      (GuardedTwice.trace .atPosition).simplify .sse = .ok (output, stats) ∧
      Trace.StepAt .sse (GuardedTwice.trace .atPosition) 0 (nonnull .atPosition) walk next ∧
      ((walk.facts.Settles (nonnull .atPosition) ∧ next.facts.output = walk.facts.output ∧
          next.stats.guardsRemoved = walk.stats.guardsRemoved + 1) ∨
        ∃ position, (GuardedTwice.trace .atPosition).EmittedFor .sse 0 position ∧
          output.ops[position]? = some (walk.facts.resolveOperation (nonnull .atPosition)) ∧
            ∀ later after, 0 < later →
              (GuardedTwice.trace .atPosition).EmittedFor .sse later after → position < after) := by
  have isFirst : (GuardedTwice.trace .atPosition).ops[0]? = some (nonnull .atPosition) := rfl
  obtain ⟨walk, next, step, isAlone⟩ :=
    Trace.own_position (simplifies .atPosition) isFirst rfl rfl
  refine ⟨_, _, walk, next, simplifies .atPosition, step, isAlone.mp ?_⟩
  exact Peephole.not_absorbs (by decide)

open GuardedTwice in
/-- The reference remembers its guard against null. -/
theorem lastGuard_of_guardedTwice :
    ∃ walk fact, (GuardedTwice.trace .guard).walkTo .sse 1 = some walk ∧
      walk.facts.pointers[subject]? = some fact ∧ fact.lastGuard = some 0 ∧
      ∃ guard, walk.facts.output[0]? = some guard ∧
        guard.opcode ∈ [.guardNonnull, .guardClass, .guardNonnullClass] ∧
          guard.args[0]? = some (.box subject) ∧ guard.resume ≠ .atPosition := by
  have walked : (GuardedTwice.trace .guard).walkTo .sse 1 =
      some { facts := guarded .guard, stats := { opsIn := 1 } } := by
    change Option.bind (Peephole.handle _ (nonnull .guard)) some = _
    rw [handle, guards]
    rfl
  have remembered : (guarded .guard).pointers[subject]? = some (GuardedTwice.known .guard) :=
    Std.HashMap.getElem?_insert_self
  exact ⟨_, _, walked, remembered, rfl, Trace.lastGuard_of_walkTo walked remembered rfl⟩

end LinearTrace
