import LinearTrace.Pipeline

/-!
# The calls of a pipeline

A run of a pipeline is the list of the calls it makes.  Passes are arbitrary and
may change from call to call; all that a call leaves behind is a trace and the
pass as it is afterwards, and the calls say which trace each pass is given.
-/

namespace LinearTrace

/-- A pass as it stands when it is called, and the trace that it is given. -/
structure PassCall where
  entry : PassEntry
  trace : Trace

namespace PassCall

variable (target : Target) (call : PassCall)

/-- What the pass answers, with the trace that it made of the given one. -/
def answer : EStateM.Result Fault Trace Bool :=
  (call.entry.later call.entry.seen).run target call.trace

/-- The trace that the call leaves: a pass that rejects is the identity, whatever it did. -/
def left : Trace :=
  match call.answer target with
  | .error (.rejection _) _ => call.trace
  | .ok _ trace | .error _ trace => trace

def isChange : Bool :=
  call.answer target matches .ok true _

/-- The fault, other than a rejection, that the pass answers. -/
def fault? : Option Fault :=
  match call.answer target with
  | .ok _ _ | .error (.rejection _) _ => none
  | .error fault _ => some fault

def after : PassEntry :=
  { call.entry with
    runs := call.entry.runs + 1
    changes := call.entry.changes + if call.isChange target then 1 else 0
    seen := (target, call.trace) :: call.entry.seen }

end PassCall

namespace PipelineRun

/-- The run with a further pass before the others. -/
def consEntry (entry : PassEntry) (run : PipelineRun) : PipelineRun :=
  { run with entries := entry :: run.entries }

/-- The calls of a round: the enabled passes of the phase in the order of registration, each on
the trace that the call before it left, up to a fault. -/
inductive Round (target : Target) (phase : Phase) :
    List PassEntry → Trace → List PassCall → Except Fault PipelineRun → Prop where
  | done (trace : Trace) : Round target phase [] trace [] (.ok ⟨[], trace⟩)
  | skipped {entry : PassEntry} {rest : List PassEntry} {trace : Trace} {calls : List PassCall}
      {outcome : Except Fault PipelineRun} : ¬ (entry.phase = phase ∧ entry.enabled) →
      Round target phase rest trace calls outcome →
        Round target phase (entry :: rest) trace calls (outcome.map (consEntry entry))
  | called {call : PassCall} {rest : List PassEntry} {calls : List PassCall}
      {outcome : Except Fault PipelineRun} : call.entry.phase = phase ∧ call.entry.enabled →
      call.fault? target = none → Round target phase rest (call.left target) calls outcome →
        Round target phase (call.entry :: rest) call.trace (call :: calls)
          (outcome.map (consEntry (call.after target)))
  | stopped {call : PassCall} {rest : List PassEntry} {fault : Fault} :
      call.entry.phase = phase ∧ call.entry.enabled → call.fault? target = some fault →
        Round target phase (call.entry :: rest) call.trace [call] (.error fault)

/-- The rounds of a phase: as long as a pass reports a change, another one, up to a limit. -/
inductive Rounds (target : Target) (phase : Phase) :
    Nat → PipelineRun → List (List PassCall) → Except Fault PipelineRun → Prop where
  | stopped {limit : Nat} {run : PipelineRun} {calls : List PassCall} {fault : Fault} :
      Round target phase run.entries run.trace calls (.error fault) →
        Rounds target phase (limit + 1) run [calls] (.error fault)
  | last {limit : Nat} {run final : PipelineRun} {calls : List PassCall} :
      Round target phase run.entries run.trace calls (.ok final) →
      limit = 0 ∨ calls.any (·.isChange target) = false →
        Rounds target phase (limit + 1) run [calls] (.ok final)
  | again {limit : Nat} {run middle : PipelineRun} {calls : List PassCall}
      {rounds : List (List PassCall)} {outcome : Except Fault PipelineRun} :
      Round target phase run.entries run.trace calls (.ok middle) →
      calls.any (·.isChange target) = true → Rounds target phase limit middle rounds outcome →
        Rounds target phase (limit + 1) run (calls :: rounds) outcome

variable {target : Target} {phase : Phase} {entry : PassEntry} {entries rest : List PassEntry}
  {trace : Trace} {calls : List PassCall} {rounds : List (List PassCall)} {fault : Fault}
  {outcome : Except Fault PipelineRun} {run middle : PipelineRun} {limit : Nat}

/-! ## One call -/

theorem run_of_fault?_eq_none {call : PassCall} (completes : call.fault? target = none) :
    call.entry.run target call.trace =
      (call.after target, call.left target, .ok (call.isChange target)) := by
  unfold PassCall.fault? PassCall.answer at completes
  unfold PassEntry.run PassCall.after PassCall.left PassCall.isChange PassCall.answer
  split <;> simp_all

theorem run_of_fault?_eq_some {call : PassCall} (stops : call.fault? target = some fault) :
    ∃ after left, call.entry.run target call.trace = (after, left, .error fault) := by
  unfold PassCall.fault? PassCall.answer at stops
  unfold PassEntry.run
  split <;> simp_all

/-! ## Rounds -/

/-- A round faults exactly with the fault of one of its calls. -/
theorem Round.fault_iff (round : Round target phase entries trace calls outcome) (fault : Fault) :
    outcome = .error fault ↔ ∃ call ∈ calls, call.fault? target = some fault := by
  induction round with
  | done trace => simp
  | @skipped _ _ _ _ outcome _ _ ih =>
    rw [← ih]
    cases outcome <;> simp [Except.map]
  | @called call _ _ outcome _ completes _ ih =>
    simp only [List.mem_cons, exists_eq_or_imp, completes, ← ih]
    cases outcome <;> simp [Except.map]
  | stopped _ stops => simp [stops]

theorem Rounds.fault_iff (ran : Rounds target phase limit run rounds outcome) (fault : Fault) :
    outcome = .error fault ↔ ∃ call ∈ rounds.flatten, call.fault? target = some fault := by
  induction ran with
  | stopped round => simpa using round.fault_iff fault
  | last round _ => simpa using round.fault_iff fault
  | again round _ _ ih =>
    have completes := round.fault_iff fault
    simp_all [or_and_right, exists_or]

/-- The work comes to the outcome, with the value if there is no fault. -/
def Agrees {α : Type} (worked : PipelineRun × Except Fault α)
    (outcome : Except Fault PipelineRun) (value : α) : Prop :=
  match outcome with
  | .ok final => worked = (final, .ok value)
  | .error fault => ∃ left, worked = (left, .error fault)

theorem Agrees.map {α β : Type} {worked : PipelineRun × Except Fault α} {value : α}
    (agrees : Agrees worked outcome value) (grow : PipelineRun → PipelineRun) (change : α → β) :
    Agrees (grow worked.1, worked.2.map change) (outcome.map grow) (change value) := by
  cases outcome with
  | error fault =>
    obtain ⟨left, rfl⟩ := agrees
    exact ⟨grow left, rfl⟩
  | ok final =>
    cases agrees
    exact rfl

theorem exists_round (target : Target) (phase : Phase) (entries : List PassEntry) (trace : Trace) :
    ∃ calls outcome, Round target phase entries trace calls outcome ∧
      Agrees (round target phase entries trace) outcome (calls.any (·.isChange target)) := by
  induction entries generalizing trace with
  | nil => exact ⟨[], _, .done trace, rfl⟩
  | cons entry rest ih =>
    let call : PassCall := ⟨entry, trace⟩
    rw [round]
    split
    next isDue =>
      cases stops : call.fault? target with
      | some fault =>
        obtain ⟨after, left, failed⟩ := run_of_fault?_eq_some stops
        rw [show entry.run target trace = _ from failed]
        exact ⟨_, _, .stopped isDue stops, _, rfl⟩
      | none =>
        obtain ⟨calls, outcome, round, agrees⟩ := ih (call.left target)
        refine ⟨_, _, .called isDue stops round, ?_⟩
        rw [show entry.run target trace = _ from run_of_fault?_eq_none stops]
        exact agrees.map (consEntry (call.after target)) (call.isChange target || ·)
    next isNotDue =>
      obtain ⟨calls, outcome, round, agrees⟩ := ih trace
      have kept := agrees.map (consEntry entry) id
      rw [Except.map_id] at kept
      exact ⟨_, _, .skipped isNotDue round, kept⟩

/-- A phase is repeated as its rounds say, and the rounds are counted. -/
theorem exists_rounds (target : Target) (phase : Phase) (limit : Nat) (run : PipelineRun) :
    ∃ rounds outcome, Rounds target phase (limit + 1) run rounds outcome ∧
      Agrees (repeatPhase target phase (limit + 1) run) outcome rounds.length := by
  obtain ⟨calls, outcome, round, agrees⟩ := exists_round target phase run.entries run.trace
  rw [repeatPhase]
  cases outcome with
  | error fault =>
    obtain ⟨left, failed⟩ := agrees
    rw [failed]
    exact ⟨_, _, .stopped round, left, rfl⟩
  | ok middle =>
    rw [show PipelineRun.round _ _ _ _ = _ from agrees]
    cases changes : calls.any (·.isChange target) with
    | false => exact ⟨_, _, .last round (.inr changes), rfl⟩
    | true =>
      cases limit with
      | zero => exact ⟨_, _, .last round (.inl rfl), rfl⟩
      | succ limit =>
        obtain ⟨rounds, outcome, ran, agrees⟩ := exists_rounds target phase limit middle
        have counted := agrees.map id (· + 1)
        rw [Except.map_id] at counted
        exact ⟨_, _, .again round changes ran, counted⟩

end PipelineRun

/-! ## Runs -/

namespace Pipeline

open PipelineRun

/-- The calls of a run, the number of its rounds and its outcome: the rounds of the first phase and,
unless a call faults, one round of the second. -/
inductive Executes (pipeline : Pipeline) (target : Target) (trace : Trace) :
    List PassCall → Nat → Except Fault PipelineRun → Prop where
  | stopped {rounds : List (List PassCall)} {fault : Fault} :
      Rounds target .simplify (max 1 pipeline.config.maxIterations) ⟨pipeline.entries, trace⟩ rounds
        (.error fault) → Executes pipeline target trace rounds.flatten rounds.length (.error fault)
  | completed {rounds : List (List PassCall)} {middle : PipelineRun} {calls : List PassCall}
      {outcome : Except Fault PipelineRun} :
      Rounds target .simplify (max 1 pipeline.config.maxIterations) ⟨pipeline.entries, trace⟩ rounds
        (.ok middle) → Round target .vectorize middle.entries middle.trace calls outcome →
          Executes pipeline target trace (rounds.flatten ++ calls) (rounds.length + 1) outcome

variable {pipeline : Pipeline} {target : Target} {trace : Trace} {calls : List PassCall}
  {rounds : Nat} {outcome : Except Fault PipelineRun}

theorem Executes.fault_iff (executes : pipeline.Executes target trace calls rounds outcome)
    (fault : Fault) :
    outcome = .error fault ↔ ∃ call ∈ calls, call.fault? target = some fault := by
  cases executes with
  | stopped ran => exact ran.fault_iff fault
  | completed ran round =>
    have completes := ran.fault_iff fault
    rw [round.fault_iff fault]
    simp only [reduceCtorEq, false_iff] at completes
    simp only [List.mem_append, or_and_right, exists_or, completes, false_or]

/-- A run makes its calls and no others: it faults exactly when a call does, and otherwise its trace
is what the last call left. -/
theorem exists_calls_of_run (pipeline : Pipeline) (target : Target) (trace : Trace) :
    ∃ calls rounds outcome, pipeline.Executes target trace calls rounds outcome ∧
      (∀ fault, (pipeline.run target trace).2 = .error fault ↔
        ∃ call ∈ calls, call.fault? target = some fault) ∧
      (pipeline.run target trace).2 = outcome.map fun final =>
        (⟨rounds, 2, trace.ops.length, final.trace.ops.length⟩, final.trace) := by
  suffices ∃ calls rounds outcome, pipeline.Executes target trace calls rounds outcome ∧
      (pipeline.run target trace).2 = outcome.map fun final =>
        (⟨rounds, 2, trace.ops.length, final.trace.ops.length⟩, final.trace) by
    obtain ⟨calls, rounds, outcome, executes, answers⟩ := this
    refine ⟨calls, rounds, outcome, executes, fun fault => ?_, answers⟩
    rw [← executes.fault_iff, answers]
    cases outcome <;> simp [Except.map]
  obtain ⟨limit, isLimit⟩ : ∃ limit, max 1 pipeline.config.maxIterations = limit + 1 :=
    Nat.exists_eq_add_of_le' (Nat.le_max_left _ _)
  have limits : limitOf pipeline.config .simplify = limit + 1 := (Nat.max_comm _ _).trans isLimit
  obtain ⟨rounds, outcome, ran, agrees⟩ :=
    exists_rounds target .simplify limit ⟨pipeline.entries, trace⟩
  rw [← isLimit] at ran
  unfold run Phase.all
  rw [runPhases, limits]
  cases outcome with
  | error fault =>
    obtain ⟨left, failed⟩ := agrees
    rw [failed]
    exact ⟨_, _, _, .stopped ran, rfl⟩
  | ok middle =>
    rw [show repeatPhase _ _ _ _ = _ from agrees]
    obtain ⟨last, outcome, ranLast, agreesLast⟩ := exists_rounds target .vectorize 0 middle
    dsimp only
    rw [runPhases, show limitOf pipeline.config .vectorize = 1 from rfl]
    cases ranLast with
    | stopped round =>
      obtain ⟨left, failed⟩ := agreesLast
      rw [failed]
      exact ⟨_, _, _, .completed ran round, rfl⟩
    | last round _ =>
      rw [show repeatPhase _ _ _ _ = _ from agreesLast]
      exact ⟨_, _, _, .completed ran round, rfl⟩
    | again _ _ none => cases none

end Pipeline

end LinearTrace
