import LinearTrace.Proofs.Peephole.Constants

/-!
# Contradictions

A walk reports a contradiction only for a trace that no run completes: at the
operation where the walk stops, the facts are true of every run that got there,
and the operation lets none of them pass.
-/

namespace LinearTrace

open Option Peephole Std.HashMap

variable {heap : Heap} {facts : Facts} {op : Operation}

variable {count : Nat} {box : Box} {literal : Const} {walk ended : Peephole} {cause : Contradiction}

variable {target : Target} {trace : Trace}

/-- No run of which the facts are true gets past the operation. -/
def Facts.Stops (heap : Heap) (facts : Facts) (op : Operation) : Prop :=
  ∀ valuation effect, facts.Holds heap valuation → op.execute heap valuation = some effect →
    ∃ frames, effect = .leave frames

theorem Facts.Refutes.stops_guard (refutes : facts.Refutes heap op) (isGuard : op.isGuard) :
    facts.Stops heap op := by
  intro valuation effect holds executed
  rcases op.cases_execute_guard isGuard executed with ⟨passes, _⟩ | ⟨frames, _, _, rfl⟩
  · exact (refutes valuation ⟨holds, passes⟩).elim
  · exact ⟨frames, rfl⟩

theorem Facts.Refutes.stops_claim (refutes : facts.Refutes heap op)
    (opcode : op.opcode = .recordExactClass) : facts.Stops heap op := by
  intro valuation effect holds executed
  rw [op.execute_claim opcode] at executed
  obtain ⟨claimed, checked, executed⟩ := bind_eq_some_iff.mp executed
  cases claimed with
  | true => exact (refutes valuation ⟨holds, checked⟩).elim
  | false => cases executed

/-! ## Where a walk stops -/

/-- The walk cannot handle the operation, because it found a contradiction. -/
def Peephole.Contradicts (walk : Peephole) (op : Operation) : Prop :=
  ∃ cause ended, countedStep op walk = .error (.contradiction cause) ended

/-- A contradiction has the excuse of the rule that found it. -/
theorem Peephole.Contradicts.excused {excuse : Prop} {post : Peephole → Unit → Peephole → Prop}
    (contradicts : walk.Contradicts op)
    (ensured : ∀ counted : Peephole, counted.facts = walk.facts →
      Ensures excuse (step op) counted (post counted)) : excuse := by
  obtain ⟨cause, ended, stopped⟩ := contradicts
  exact (Ensures.bind_updateStats (ensured _ rfl) :
    Ensures excuse (countedStep op) walk (post _)).of_contradiction stopped

theorem Peephole.contradicts_of_forM {ops : List Operation}
    (stopped : (ops.forM countedStep) walk = .error (.contradiction cause) ended) :
    ∃ count op reached, ops[count]? = some op ∧
      (ops.take count).foldlM handle walk = some reached ∧ reached.Contradicts op := by
  induction ops generalizing walk with
  | nil => cases stopped
  | cons op rest ih =>
    change EStateM.bind (countedStep op) (fun _ => rest.forM countedStep) walk = _ at stopped
    unfold EStateM.bind at stopped
    split at stopped
    next next stepped =>
      obtain ⟨count, other, reached, found, walked, contradicts⟩ := ih stopped
      refine ⟨count + 1, other, reached, found, ?_, contradicts⟩
      rw [List.take_succ_cons, List.foldlM_cons, handle, stepped]
      exact walked
    next fault middle stepped =>
      cases stopped
      exact ⟨0, op, walk, rfl, rfl, cause, ended, stepped⟩

theorem Trace.contradicts_of_simplify
    (failed : trace.simplify target = .error (.contradiction cause)) :
    ∃ count op walk, trace.ops[count]? = some op ∧ trace.walkTo target count = some walk ∧
      walk.Contradicts op := by
  unfold simplify at failed
  split at failed
  · cases failed
  next fault ended stopped =>
    cases failed
    exact contradicts_of_forM stopped

/-! ## Runs of a contradictory trace -/

section

variable {target : Target} {trace : Trace} {member : Operation → Prop} {invariant : Facts → Prop}
  {label jump : Operation} {middle : List Operation}

theorem Peephole.Contradicts.not_frame (contradicts : walk.Contradicts op)
    (isVoid : op.result = none) : ¬ (op.opcode = .label ∨ op.opcode = .jump) :=
  fun opcode => contradicts.excused fun counted _ => step_frame counted opcode isVoid

theorem Bracketed.member_of_contradicts (bracketed : Bracketed member trace.ops label middle jump)
    (found : trace.ops[count]? = some op) (contradicts : walk.Contradicts op) :
    count < middle.length + 1 ∧ member op := by
  have before : count < middle.length + 1 := by
    refine Decidable.byContradiction fun beyond => ?_
    obtain ⟨inside, _⟩ := List.getElem?_eq_some_iff.mp found
    have length := bracketed.length
    obtain rfl : count = middle.length + 1 := by omega
    cases bracketed.getElem?_jump.symm.trans found
    exact contradicts.not_frame bracketed.jumpIsVoid (.inr bracketed.isJump)
  refine ⟨before, ?_⟩
  rcases bracketed.cases_getElem? before found with ⟨_, rfl⟩ | isMember
  · exact (contradicts.not_frame bracketed.labelIsVoid (.inl bracketed.isLabel)).elim
  · exact isMember

/-- No run completes a trace whose walk stops at an operation that no run gets past. -/
theorem not_jumped_of_stops (bracketed : Bracketed member trace.ops label middle jump)
    (inScope : Scoped trace.ops) (results : ResultsAreIntegral trace.ops)
    (sound : SoundSteps heap member invariant) (initial : invariant (Facts.start target trace))
    (stops : ∀ count op walk, count ≤ middle.length + 1 → trace.ops[count]? = some op → member op →
      trace.walkTo target count = some walk → walk.facts.Coherent ∧ invariant walk.facts →
        walk.Contradicts op → walk.facts.Stops heap op)
    (failed : trace.simplify target = .error (.contradiction cause)) (inputs : Box → Const)
    (args : List Const) : run heap trace.ops inputs ≠ some (.jumped args) := by
  intro jumped
  obtain ⟨count, op, walk, found, walked, contradicts⟩ := Trace.contradicts_of_simplify failed
  obtain ⟨before, isMember⟩ := bracketed.member_of_contradicts found contradicts
  have below := Nat.le_of_lt before
  have well := invariant_of_walkTo bracketed sound initial below walked
  have stops := stops count op walk below found isMember walked well contradicts
  -- The run is cut where the walk stops.
  have whole : run heap trace.ops inputs =
      (runFrom heap (entry trace.ops inputs) (trace.ops.take (count + 1))).bind
        (Progress.resume heap (trace.ops.take (count + 1)).length
          (trace.ops.drop (count + 1))) := by
    rw [run, ← runFrom_append, List.take_append_drop]
  rw [jumped] at whole
  obtain ⟨progress, ran, resumed⟩ := bind_eq_some_iff.mp whole.symm
  rw [runFrom_take_succ found] at ran
  obtain ⟨earlier, ranTo, advanced⟩ := bind_eq_some_iff.mp ran
  have inStep := inStep_of_walkTo bracketed inScope results sound initial below walked ranTo
  have left : ∃ position frames, progress = .left position frames := by
    cases earlier with
    | running valuation =>
      obtain ⟨reached, ongoing⟩ := inStep
      obtain ⟨effect, executed, rfl⟩ := map_eq_some_iff.mp advanced
      obtain ⟨frames, rfl⟩ := stops valuation effect ongoing.follows.holds executed
      exact ⟨count, frames, rfl⟩
    | left position frames =>
      cases advanced
      exact ⟨position, frames, rfl⟩
    | jumped args => exact inStep.elim
  obtain ⟨position, frames, rfl⟩ := left
  rw [Progress.resume_left] at resumed
  cases resumed

end

/-! ## The two kinds of traces -/

theorem stops_of_integerStep (isStep : op.IsIntegerStep) (coherent : walk.facts.Coherent)
    (noPointers : walk.facts.NoPointers) (contradicts : walk.Contradicts op) :
    walk.facts.Stops heap op := by
  rcases isStep with ⟨isInteger, result⟩ | ⟨opcode, isVoid⟩
  · obtain ⟨box, result⟩ := ne_none_iff_exists'.mp result
    have integral : op.opcode.isIntegral = true := by
      rw [Opcode.isIntegral, isInteger, Bool.true_or]
    have noComparison := Opcode.noComparison_of_isIntegerOperation isInteger
    have excused : False := contradicts.excused fun counted same => by
      rw [← same] at coherent
      exact step_value coherent (fun isComparison =>
        (absurd isComparison noComparison : counted.facts.target.Describes heap)) integral result
    exact excused.elim
  · have isGuard : op.isGuard = true := by
      unfold Operation.isGuard
      rcases opcode with opcode | opcode | opcode <;> rw [opcode] <;> rfl
    have refutes : walk.facts.Refutes heap op := contradicts.excused fun counted same => by
      rw [← same] at coherent noPointers ⊢
      exact step_integerGuard coherent noPointers opcode isVoid
    exact refutes.stops_guard isGuard

/-- The target lists every object that the operations name. -/
def Target.KnowsConstants (target : Target) (heap : Heap) (ops : List Operation) : Prop :=
  ∀ op ∈ ops, ∀ address, .const (.ref address) ∈ op.args → heap.classOf address ≠ none →
    target.classOf? address ≠ none

theorem stops_of_referenceStep (isStep : op.IsReferenceStep) (coherent : walk.facts.Coherent)
    (describes : walk.facts.target.Describes heap) (listed : ¬ walk.facts.Unlisted heap op)
    (contradicts : walk.Contradicts op) : walk.facts.Stops heap op := by
  rcases isStep.cases with
    ⟨isComparison, box, isResult, _⟩ | ⟨isCheckedGuard, isVoid⟩ | ⟨isClaim, isVoid⟩
  · have integral := Opcode.isIntegral_of_isPointerComparison isComparison
    have excused : False := contradicts.excused fun counted same => by
      rw [← same] at coherent describes
      exact step_value coherent (fun _ => describes) integral isResult
    exact excused.elim
  · have refutes : walk.facts.Refutes heap op ∨ walk.facts.Unlisted heap op :=
      contradicts.excused fun counted same => by
        rw [← same] at coherent describes ⊢
        exact step_guard coherent describes isCheckedGuard isVoid
    exact (refutes.resolve_right listed).stops_guard
      (Opcode.isGuard_of_isCheckedGuard isCheckedGuard)
  · have refutes : walk.facts.Refutes heap op := contradicts.excused fun counted same => by
      rw [← same] at coherent describes ⊢
      exact step_claim coherent describes isClaim isVoid
    exact refutes.stops_claim isClaim

/-- A walk asks only about objects that the target lists: the trace names them. -/
theorem Trace.not_unlisted_of_walkTo {label jump : Operation} {middle : List Operation}
    (bracketed : Bracketed Operation.IsReferenceStep trace.ops label middle jump)
    (knows : target.KnowsConstants heap trace.ops) (before : count ≤ middle.length + 1)
    (found : trace.ops[count]? = some op) (walked : trace.walkTo target count = some walk)
    (sameTarget : walk.facts.target = target) : ¬ walk.facts.Unlisted heap op := by
  rintro ⟨source, address, first, resolved, unlisted, isObject⟩
  let named : UInt64 → Prop := fun address =>
    address = 0 ∨ ∃ op ∈ trace.ops, .const (.ref address) ∈ op.args
  have args : ∀ op ∈ trace.ops, ∀ value ∈ op.args, value.IsNamed named := by
    intro op isOp value isArg
    cases value with
    | box box => exact trivial
    | const literal =>
      rintro address rfl
      exact .inr ⟨op, isOp, isArg⟩
  have names := Trace.namesOnly_of_walkTo bracketed (.inl rfl) args before walked
  have isNamed := names.resolve
    (args op (List.mem_of_getElem? found) source (List.mem_of_getElem? first))
  rw [resolved] at isNamed
  rcases isNamed address rfl with rfl | ⟨naming, isOp, isArg⟩
  · exact isObject heap.classOf_null
  · rw [sameTarget] at unlisted
    exact knows naming isOp address isArg isObject unlisted

theorem soundSteps_target (describes : target.Describes heap) :
    SoundSteps heap Operation.IsReferenceStep fun facts => facts.target = target where
  kept _ _ same _ isTarget := same.trans isTarget
  step op walk next isStep coherent isTarget handled := by
    have described : walk.facts.target.Describes heap := by rw [isTarget]; exact describes
    obtain ⟨stepped, _⟩ :=
      (soundSteps_reference heap).step op walk next isStep coherent described handled
    exact ⟨stepped, stepped.target.trans isTarget⟩

/-- A contradiction is reported only for a trace that no run completes.  A trace of words has no
such run whatever the heap; a trace of references has none on a heap that the target describes
and whose objects it lists as far as the trace names them.  A run that breaks a claim is not
defined, so it does not count. -/
theorem not_jumped_of_contradiction {target : Target} {trace : Trace} {cause : Contradiction}
    (failed : trace.simplify target = .error (.contradiction cause)) (heap : Heap)
    (inputs : Box → Const) (args : List Const) :
    (IntegerTrace trace.ops → run heap trace.ops inputs ≠ some (.jumped args)) ∧
    (ReferenceTrace trace.ops → target.Describes heap → target.KnowsConstants heap trace.ops →
      run heap trace.ops inputs ≠ some (.jumped args)) := by
  constructor
  · intro integer
    obtain ⟨label, middle, jump, bracketed⟩ := integer.bracketed
    have results := bracketed.resultsAreIntegral fun _ isStep => isStep.isIntegral
    exact not_jumped_of_stops bracketed integer.inScope results (soundSteps_integer heap)
      (fun _ => Std.HashMap.getElem?_empty)
      (fun _ _ _ _ _ isStep _ well => stops_of_integerStep isStep well.1 well.2)
      failed inputs args
  · intro reference describes knows
    obtain ⟨label, middle, jump, bracketed, _⟩ := reference.bracketed
    have results := bracketed.resultsAreIntegral fun _ isStep => isStep.isIntegral
    refine not_jumped_of_stops bracketed reference.inScope results (soundSteps_target describes)
      rfl ?_ failed inputs args
    intro count op walk before found isStep walked well contradicts
    have described : walk.facts.target.Describes heap := by rw [well.2]; exact describes
    exact stops_of_referenceStep isStep well.1 described
      (Trace.not_unlisted_of_walkTo bracketed knows before found walked well.2) contradicts

/-! ## Two traces that contradict themselves -/

namespace ContradictoryGuards

def word : Box := ⟨0, .int⟩

def reference : Box := ⟨0, .ref⟩

def label (box : Box) : Operation := { opcode := .label, args := [.box box] }

def isConstant (box : Box) (literal : Const) : Operation :=
  { opcode := .guardValue, args := [.box box, .const literal] }

def isObject : Operation := { opcode := .guardIsObject, args := [.box reference] }

def jump (box : Box) : Operation := { opcode := .jump, args := [.box box] }

/-- A word that should be two constants. -/
def ofWords : Trace :=
  { ops := [label word, isConstant word (.int 1), isConstant word (.int 2), jump word] }

/-- A reference that should be a certain constant, and an object. -/
def ofReferences : Trace :=
  { ops := [label reference, isConstant reference (.ref 64), isObject, jump reference] }

def entered (box : Box) : Facts := { target := .sse, output := #[label box] }

/-- After the first guard the box is a constant. -/
def known (box : Box) (literal : Const) : Facts :=
  ((entered box).afterEmit (isConstant box literal)).makeConstant (.box box) literal

theorem resolve_known (box : Box) (literal : Const) :
    (known box literal).resolve (.box box) = .const literal := by
  have replacements : (known box literal).replacements =
      (∅ : Replacements).insert box (.const literal) := rfl
  have size : (known box literal).replacements.size = 1 := by
    rw [replacements, size_insert, if_neg not_mem_empty]
    rfl
  rw [Facts.resolve, size, Facts.follow, replacements, getElem?_insert_self]
  rfl

theorem guardValue_eq (walk : Peephole)
    (unguarded : (walk.facts.pointer (walk.facts.resolve (.box box))).lastGuard = none) :
    guardValue (isConstant box literal) walk =
      guardConstant (isConstant box literal) literal walk := by
  have isGuarded : (isConstant box literal).arg 0 = .ok (.box box) := rfl
  have isExpected : (isConstant box literal).arg 1 = .ok (.const literal) := rfl
  have constant : walk.facts.constant? (.const literal) = some literal := by
    rw [Facts.constant?, Facts.resolve, Facts.follow_const]
  simp only [guardValue, currentFacts_bind, lift_bind isGuarded,
    lift_bind isExpected, constant, unguarded]
  generalize ((walk.facts.resolve (.box box)).type.isRef &&
    !(walk.facts.resolve (.box box)).isConst) = isBox
  cases isBox <;> rfl

theorem learns (box : Box) (literal : Const) : countedStep (isConstant box literal)
        { facts := entered box, stats := { opsIn := 1 } } =
      .ok () { facts := known box literal, stats := { opsIn := 2 } } := by
  have isGuarded : (isConstant box literal).arg 0 = .ok (.box box) := rfl
  have unknown : (entered box).constant? ((entered box).resolve (.box box)) = none := by
    change (if box.type.isInt then ((∅ : Std.HashMap Box Interval)[box]?.bind _).map _
      else none) = none
    rw [getElem?_empty]
    split <;> rfl
  have unguarded : ((entered box).pointer ((entered box).resolve (.box box))).lastGuard = none := by
    change ((∅ : Std.HashMap Box PointerFact).getD box {}).lastGuard = none
    rw [getD_empty]
  refine (guardValue_eq { facts := entered box, stats := { opsIn := 2 } } unguarded).trans ?_
  simp only [guardConstant, currentFacts_bind, lift_bind isGuarded,
    unknown]
  rfl

theorem simplify_of_fails {trace : Trace} {second : Operation} {rest : List Operation}
    (ops : trace.ops = label box :: isConstant box literal :: second :: rest)
    (supply : trace.supply = {}) (callResults : trace.callResults = ∅) {fault : Fault}
    (fails : countedStep second { facts := known box literal, stats := { opsIn := 2 } } =
      .error fault ended) : trace.simplify .sse = .error fault := by
  have enters : countedStep (label box) (.start .sse trace) =
      .ok () { facts := entered box, stats := { opsIn := 1 } } := by
    rw [start, Facts.start, supply, callResults]
    rfl
  have stopped : (trace.ops.forM countedStep) (.start .sse trace) = .error fault ended := by
    rw [ops, forM_of_ok enters, forM_of_ok (learns box literal)]
    change EStateM.bind (countedStep second) _ _ = _
    rw [EStateM.bind, fails]
  rw [Trace.simplify, stopped]

theorem simplify_ofWords :
    ofWords.simplify .sse = .error (.contradiction (.guardFails (isConstant word (.int 2)))) := by
  have fails : countedStep (isConstant word (.int 2))
      { facts := known word (.int 1), stats := { opsIn := 2 } } =
        .error (.contradiction (.guardFails (isConstant word (.int 2))))
          { facts := known word (.int 1), stats := { opsIn := 3 } } := by
    have isGuarded : (isConstant word (.int 2)).arg 0 = .ok (.box word) := rfl
    have constant : (known word (.int 1)).constant? (.const (.int 1)) = some (.int 1) := by
      rw [Facts.constant?, Facts.resolve, Facts.follow_const]
    have unguarded : ((known word (.int 1)).pointer
        ((known word (.int 1)).resolve (.box word))).lastGuard = none := by
      rw [resolve_known, Facts.pointer, Facts.resolve, Facts.follow_const]
    refine (guardValue_eq { facts := known word (.int 1), stats := { opsIn := 3 } }
      unguarded).trans ?_
    simp only [guardConstant, currentFacts_bind, lift_bind isGuarded,
      resolve_known, constant]
    rfl
  exact simplify_of_fails rfl rfl rfl fails

theorem simplify_ofReferences :
    ofReferences.simplify .sse = .error (.contradiction .isObjectOfConstantFails) := by
  have fails : countedStep isObject
      { facts := known reference (.ref 64), stats := { opsIn := 2 } } =
        .error (.contradiction .isObjectOfConstantFails)
          { facts := known reference (.ref 64), stats := { opsIn := 3 } } := by
    have isGuarded : isObject.arg 0 = .ok (.box reference) := rfl
    have unlisted : (known reference (.ref 64)).target.isObject 64 = false := rfl
    change guardIsObject isObject
      { facts := known reference (.ref 64), stats := { opsIn := 3 } } = _
    simp only [guardIsObject, currentFacts_bind, lift_bind isGuarded,
      resolve_known]
    change (if (64 : UInt64) = 0 then _
      else if (known reference (.ref 64)).target.isObject 64 then _ else _ : PeepholeM Unit) _ = _
    rw [if_neg (by decide), unlisted]
    rfl
  exact simplify_of_fails rfl rfl rfl fails

end ContradictoryGuards

open ContradictoryGuards in
/-- No word is two constants, and the constant 64 is no object on a heap whose objects are
elsewhere, although the target lists none of them. -/
theorem not_jumped_of_contradictoryGuards :
    (∀ heap inputs args, run heap ofWords.ops inputs ≠ some (.jumped args)) ∧
    ∀ inputs args, run CheckedReferences.twoInstances ofReferences.ops inputs ≠
      some (.jumped args) := by
  have integer : IntegerTrace ofWords.ops :=
    ⟨⟨_, [_, _], _, rfl, rfl, rfl, rfl, rfl, by decide⟩, by decide⟩
  have ofReference : ReferenceTrace ofReferences.ops :=
    ⟨⟨_, [_, _], _, ⟨rfl, rfl, rfl, rfl, rfl, by decide⟩, by decide⟩, by decide⟩
  have describes : Target.sse.Describes CheckedReferences.twoInstances := ⟨nofun, nofun, nofun⟩
  have knows : Target.sse.KnowsConstants CheckedReferences.twoInstances ofReferences.ops := by
    have operands : ∀ op ∈ ofReferences.ops, ∀ value ∈ op.args,
        value = .box reference ∨ value = .const (.ref 64) := by decide
    intro op isOp address isArg isObject
    rcases operands op isOp _ isArg with isBox | isConstant
    · cases isBox
    · cases isConstant
      exact absurd rfl isObject
  refine ⟨fun heap inputs args => ?_, fun inputs args => ?_⟩
  · exact (not_jumped_of_contradiction simplify_ofWords heap inputs args).1 integer
  · exact (not_jumped_of_contradiction simplify_ofReferences _ inputs args).2 ofReference describes
      knows

end LinearTrace
