import LinearTrace.Pass
import LinearTrace.Proofs.Peephole.Contribution

/-!
# What an unset change flag says

The flag is read off three counts: how many operations went in and came out, how many were made
cheaper, and how many guards were merged.  Operands that are known to be constants, calls that
became ordinary ones, and copies that make up for dropped operations change a trace and none of
the counts.  When the flag is unset, these are the only changes.
-/

namespace LinearTrace

open List Peephole

theorem Operation.kept_eq (op : Operation) (same : op.kept.opcode = op.opcode) :
    op.kept = op ∧ op.opcode ≠ .callPure ∧ op.opcode ≠ .callLoopInvariant := by
  unfold kept at same ⊢
  split at same
  next isCall => rcases isCall with isCall | isCall <;> rw [isCall] at same <;> cases same
  next others => exact ⟨if_neg others, not_or.mp others⟩

namespace Trace

variable {target : Target} {trace : Trace} {count : Nat} {op : Operation}
  {walk next final : Peephole}

/-- The operation was appended. -/
def Keeps (op : Operation) (walk next : Peephole) : Prop :=
  next.facts.output = walk.facts.output.push (walk.facts.resolveOperation op.kept)

/-- A load or a store of an item. -/
def isAccess (op : Operation) : Bool :=
  op.opcode == .getArrayItemGc || op.opcode == .setArrayItemGc

theorem isAccess_kept (facts : Facts) (op : Operation) :
    isAccess (facts.resolveOperation op.kept) = isAccess op := by
  unfold Operation.kept
  split
  next isCall => rcases isCall with isCall | isCall <;> rw [isAccess, isAccess, isCall] <;> rfl
  · rfl

theorem stats_of_walk {last : Nat} (inside : last ≤ trace.ops.length)
    (ordered : count ≤ last) (walkedTo : trace.walkTo target count = some walk)
    (walked : trace.walkTo target last = some final) :
    final.stats.opsIn + count = walk.stats.opsIn + last ∧
      walk.stats.reduced + walk.stats.guardsMerged ≤
        final.stats.reduced + final.stats.guardsMerged := by
  refine walk_induction (motive := fun last final =>
    final.stats.opsIn + count = walk.stats.opsIn + last ∧
      walk.stats.reduced + walk.stats.guardsMerged ≤
        final.stats.reduced + final.stats.guardsMerged) inside ?_ ?_ ordered walked
  · intro final walked
    cases walkedTo.symm.trans walked
    exact ⟨rfl, le_rfl⟩
  intro between op walk next _ step grown
  have read : walk.counted.stats.opsIn = walk.stats.opsIn + 1 := rfl
  have same : walk.counted.stats.reduced + walk.counted.stats.guardsMerged =
    walk.stats.reduced + walk.stats.guardsMerged := rfl
  cases step.contributes with
  | dropped _ adds | kept _ adds _ | copied _ _ _ _ adds | reduced _ adds | merged _ _ _ adds =>
    obtain ⟨_, _⟩ := adds
    omega

section

variable (walked : trace.walkTo target trace.ops.length = some final)

include walked

/-- If no step appends more than one operation of a kind, and as many come out as went in, each step
for one of them appends one. -/
theorem countP_eq_of_walk (kind : Operation → Bool)
    (bounded : ∀ count op walk next, StepAt target trace count op walk next →
      next.facts.output.toList.countP kind ≤ walk.facts.output.toList.countP kind + [op].countP
      kind) (same : final.facts.output.toList.countP kind = trace.ops.countP kind)
    (step : StepAt target trace count op walk next) :
    next.facts.output.toList.countP kind =
      walk.facts.output.toList.countP kind + [op].countP kind := by
  have taken {between : Nat} {op : Operation} (found : trace.ops[between]? = some op) :
      (trace.ops.take (between + 1)).countP kind =
        (trace.ops.take between).countP kind + [op].countP kind := by
    rw [take_add_one, found, countP_append]
    rfl
  -- What is missing from the output never comes back.
  have missing {first last : Nat} {early late : Peephole} (inside : last ≤ trace.ops.length)
      (walkedEarly : trace.walkTo target first = some early) (ordered : first ≤ last)
      (walkedLate : trace.walkTo target last = some late) :
      late.facts.output.toList.countP kind + (trace.ops.take first).countP kind ≤
        early.facts.output.toList.countP kind + (trace.ops.take last).countP kind := by
    refine walk_induction (motive := fun last late =>
      late.facts.output.toList.countP kind + (trace.ops.take first).countP kind ≤
        early.facts.output.toList.countP kind + (trace.ops.take last).countP kind) inside ?_ ?_
      ordered walkedLate
    · intro walk walked
      cases walkedEarly.symm.trans walked
      exact le_rfl
    · intro between op walk next _ step holds
      have := bounded between op walk next step
      have := taken step.found
      omega
  have before := missing (Nat.le_of_lt step.inside) rfl (Nat.zero_le _) step.walked
  have after := missing le_rfl step.walkedNext step.inside walked
  rw [take_zero] at before
  rw [take_length, same] at after
  have := bounded count op walk next step
  have := taken step.found
  have : (start target trace).facts.output.toList.countP kind = 0 := rfl
  simp only [countP_nil] at before
  omega

theorem prefix_of_walk (grows : ∀ count op walk next, StepAt target trace count op walk next →
      walk.facts.output.toList <+: next.facts.output.toList)
    (step : StepAt target trace count op walk next) :
    next.facts.output.toList <+: final.facts.output.toList := by
  refine walk_induction (motive := fun _ final =>
    next.facts.output.toList <+: final.facts.output.toList) le_rfl ?_ ?_ step.inside walked
  · intro walk walked
    cases step.walkedNext.symm.trans walked
    exact prefix_rfl
  · intro between op walk next _ step kept
    exact kept.trans (grows between op walk next step)

theorem output_of_keeps (keeps : ∀ count op walk next, StepAt target trace count op walk next →
      Keeps op walk next) (step : StepAt target trace count op walk next) :
    final.facts.output.toList[count]? = some (walk.facts.resolveOperation op.kept) := by
  have size : walk.facts.output.toList.length = count := by
    refine walk_induction (motive := fun last walk => walk.facts.output.toList.length = last)
      (Nat.le_of_lt step.inside) ?_ ?_ (Nat.zero_le _) step.walked
    · rintro walk ⟨⟩
      rfl
    · intro between op walk next _ step size
      rw [keeps between op walk next step, Array.toList_push, length_append, size]
      rfl
  have kept := prefix_of_walk walked (fun count op walk next step => by
    rw [keeps count op walk next step, Array.toList_push]
    exact prefix_append _ _) step
  obtain ⟨rest, whole⟩ := kept
  rw [← whole, keeps count op walk next step, Array.toList_push]
  simp [← size]

variable (quiet : final.stats.reduced + final.stats.guardsMerged = 0)

include quiet

/-- With nothing counted, a step keeps the operation, drops it, or unrolls a copy. -/
theorem quiet_cases (step : StepAt target trace count op walk next) :
    (Keeps op walk next ∧ (op.opcode = .call → copyPlan walk.facts op = .stay)) ∨
    next.facts.output = walk.facts.output ∨
    (op.opcode = .call ∧ copyPlan walk.facts op ≠ .stay) ∧ ∃ added,
      next.facts.output.toList = walk.facts.output.toList ++ added ∧
        ∀ new ∈ added, isAccess new := by
  have bounded := (stats_of_walk le_rfl step.inside step.walkedNext walked).2
  have impossible (adds : walk.counted.stats.Adds 1 next.stats) : False := by
    have := adds.2
    omega
  cases step.contributes with
  | dropped output _ => exact .inr (.inl output)
  | kept output _ stays => exact .inl ⟨output, stays⟩
  | copied isCall plan output accesses _ =>
    refine .inr (.inr ⟨⟨isCall, plan⟩, _, output, fun new isNew => ?_⟩)
    simpa [isAccess] using accesses new isNew
  | reduced _ adds | merged _ _ _ adds => exact (impossible adds).elim

theorem keeps_of_stays (size : final.facts.output.size = trace.ops.length)
    (stays : ∀ count op walk next, StepAt target trace count op walk next → op.opcode = .call →
      copyPlan walk.facts op = .stay)
    (step : StepAt target trace count op walk next) : Keeps op walk next := by
  have cases_of {count : Nat} {op : Operation} {walk next : Peephole}
      (step : StepAt target trace count op walk next) :
      Keeps op walk next ∨ next.facts.output = walk.facts.output := by
    rcases quiet_cases walked quiet step with kept | dropped | ⟨⟨isCall, plan⟩, _⟩
    · exact .inl kept.1
    · exact .inr dropped
    · exact absurd (stays count op walk next step isCall) plan
  have exactly := countP_eq_of_walk walked (fun _ => true) (fun count op walk next step => by
      rcases cases_of step with kept | dropped
      · rw [kept]
        simp
      · rw [dropped]
        simp) (by simpa using size) step
  rcases cases_of step with kept | dropped
  · exact kept
  · rw [dropped] at exactly
    simp at exactly

theorem stays_of_countP
    (same : final.facts.output.toList.countP (!isAccess ·) = trace.ops.countP (!isAccess ·))
    (step : StepAt target trace count op walk next) (isCall : op.opcode = .call) :
    copyPlan walk.facts op = .stay := by
  have notAccess : isAccess op = false := by rw [isAccess, isCall]; rfl
  have unrolled {added : List Operation} (accesses : ∀ new ∈ added, isAccess new = true) :
      added.countP (!isAccess ·) = 0 :=
    countP_eq_zero.mpr fun new isNew => by simp [accesses new isNew]
  have exactly := countP_eq_of_walk walked (!isAccess ·) (fun count op walk next step => by
      rcases quiet_cases walked quiet step with kept | dropped | ⟨_, added, output, accesses⟩
      · rw [kept.1, Array.toList_push, countP_append]
        simp [isAccess_kept]
      · rw [dropped]
        exact Nat.le_add_right _ _
      · rw [output, countP_append, unrolled accesses]
        exact Nat.le_add_right _ _) same step
  rcases quiet_cases walked quiet step with kept | dropped | ⟨_, added, output, accesses⟩
  · exact kept.2 isCall
  · rw [dropped] at exactly
    simp [notAccess] at exactly
  · rw [output, countP_append, unrolled accesses] at exactly
    simp [notAccess] at exactly

end

end Trace

namespace Pass

/-- A rule leaves an operation in place with its opcode and operands: it is no call that may become
an ordinary one or be unrolled, and none of its boxes is replaced. -/
structure LeavesAlone (facts : Facts) (op : Operation) : Prop where
  notPure : op.opcode ≠ .callPure
  notInvariant : op.opcode ≠ .callLoopInvariant
  stays : op.opcode = .call → Peephole.copyPlan facts op = .stay
  resolved : facts.resolveOperation op = op

variable {target : Target} {trace output : Trace}

theorem walk_of_run (unchanged : simplify.run target trace = .ok false output) :
    ∃ final, trace.walkTo target trace.ops.length = some final ∧
      output.ops = final.facts.output.toList ∧
      final.stats.reduced + final.stats.guardsMerged = 0 ∧
      final.facts.output.size = trace.ops.length := by
  have ⟨final, walked, isOutput, flag⟩ : ∃ final : Peephole,
      (trace.ops.forM countedStep) (.start target trace) = .ok () final ∧
        output = final.facts.toTrace ∧ final.finalStats.changed = false := by
    dsimp only [simplify, ofCounting, simplifyCounting, Trace.simplify] at unchanged
    cases ran : (trace.ops.forM countedStep) (.start target trace) with
    | ok _ final =>
      rw [ran] at unchanged
      injection unchanged with flag isOutput
      exact ⟨final, rfl, isOutput.symm, flag⟩
    | error fault _ =>
      rw [ran] at unchanged
      cases unchanged
  have walkedTo : trace.walkTo target trace.ops.length = some final := by
    rw [Trace.walkTo, take_length]
    exact foldlM_handle walked
  have read := (Trace.stats_of_walk le_rfl (Nat.zero_le _) rfl walkedTo).1
  simp only [PeepholeStats.changed, Bool.or_eq_false_iff, bne_eq_false_iff_eq] at flag
  obtain ⟨⟨sameSize, noReduced⟩, noMerged⟩ := flag
  have sameSize : final.stats.opsIn = final.facts.output.size := sameSize
  have noReduced : ¬ 0 < final.stats.reduced := of_decide_eq_false noReduced
  have noMerged : ¬ 0 < final.stats.guardsMerged := of_decide_eq_false noMerged
  have : (start target trace).stats.opsIn = 0 := rfl
  exact ⟨final, walkedTo, isOutput ▸ rfl, by omega, by omega⟩

/-- A pass that reports no change returned the same operations exactly if it left each of them
alone. -/
theorem ops_eq_iff_leavesAlone (unchanged : simplify.run target trace = .ok false output) :
    output.ops = trace.ops ↔ ∀ count op walk, trace.ops[count]? = some op →
      trace.walkTo target count = some walk → LeavesAlone walk.facts op := by
  obtain ⟨final, walked, isOutput, quiet, size⟩ := walk_of_run unchanged
  constructor
  · intro same count op walk found walkedTo
    have stays {count : Nat} {op : Operation} {walk next : Peephole}
        (step : trace.StepAt target count op walk next) :=
      Trace.stays_of_countP walked quiet (by rw [← isOutput, same]) step
    obtain ⟨_, next, step⟩ := Trace.exists_stepAt walked found
    cases walkedTo.symm.trans step.walked
    have kept := Trace.output_of_keeps walked
      (fun _ _ _ _ => Trace.keeps_of_stays walked quiet size (fun _ _ _ _ => stays)) step
    rw [← isOutput, same, found, Option.some.injEq] at kept
    obtain ⟨plain, notPure, notInvariant⟩ := op.kept_eq (congrArg Operation.opcode kept).symm
    rw [plain] at kept
    exact ⟨notPure, notInvariant, stays step, kept.symm⟩
  · intro alone
    have keeps {count : Nat} {op : Operation} {walk next : Peephole} :
        trace.StepAt target count op walk next → Trace.Keeps op walk next :=
      Trace.keeps_of_stays walked quiet size fun count op walk _ step =>
        (alone count op walk step.found step.walked).stays
    refine List.ext_getElem? fun count => ?_
    cases found : trace.ops[count]? with
    | none =>
      rw [isOutput, List.getElem?_eq_none_iff, Array.length_toList, size]
      exact List.getElem?_eq_none_iff.mp found
    | some op =>
      obtain ⟨walk, next, step⟩ := Trace.exists_stepAt walked found
      have leaves := alone count op walk found step.walked
      have plain : op.kept = op := if_neg (not_or.mpr ⟨leaves.notPure, leaves.notInvariant⟩)
      rw [isOutput, Trace.output_of_keeps walked (fun _ _ _ _ => keeps) step, plain,
        leaves.resolved]

/-! ## A call whose result is not known -/

def label : Operation := { opcode := .label, args := [], descriptor := some (.target 1) }

def unknown : Operation := { opcode := .callPure, args := [.int 7] }

def ordinary : Operation := { opcode := .call, args := [.int 7] }

def jump : Operation := { opcode := .jump, args := [], descriptor := some (.target 1) }

theorem run_ordinary : simplify.run .sse { ops := [label, ordinary, jump] } =
      .ok false { ops := [label, ordinary, jump] } :=
  rfl

def entered : Peephole :=
  { facts := (Facts.start .sse {}).afterEmit label, stats := { opsIn := 1 } }

theorem countedStep_unknown : countedStep unknown entered = countedStep ordinary entered := by
  have noResult : (unknown.args.mapM entered.counted.facts.constant?).bind
      entered.counted.facts.callResult? = none := by
    exact Std.HashMap.getElem?_empty
  change callPure unknown entered.counted = emit ordinary entered.counted
  simp only [callPure, currentFacts_bind, noResult]
  rfl

/-- The flag is unset although a call became an ordinary one. -/
theorem run_unknown_ne :
    ∃ output, simplify.run .sse { ops := [label, unknown, jump] } = .ok false output ∧
      output.ops ≠ [label, unknown, jump] := by
  have enters : Peephole.countedStep label (.start .sse { ops := [label, unknown, jump] }) =
      .ok () entered := rfl
  refine ⟨{ ops := [label, ordinary, jump] }, ?_, by decide⟩
  dsimp only [simplify, ofCounting, simplifyCounting, Trace.simplify]
  rw [Peephole.forM_of_ok enters, Peephole.forM_of_ok (countedStep_unknown.trans rfl)]
  rfl

/-- An ordinary call is left alone. -/
theorem leavesAlone_ordinary :
    simplify.run .sse { ops := [label, ordinary, jump] } =
        .ok false { ops := [label, ordinary, jump] } ∧
      ∀ count op walk, [label, ordinary, jump][count]? = some op →
        Trace.walkTo .sse { ops := [label, ordinary, jump] } count = some walk →
          LeavesAlone walk.facts op :=
  ⟨run_ordinary, (ops_eq_iff_leavesAlone run_ordinary).mp rfl⟩

end Pass

end LinearTrace
