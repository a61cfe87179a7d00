import LinearTrace.Proofs.Peephole.Advance

/-!
# The run of the output

Along a walk, the run of what was emitted so far is kept in step with the run of
the operations handled so far.  While the trace's run goes on, so does the
output's.  Once it has left, the output's run leaves as well: at the guard that
was emitted for the failing one, or at an earlier guard that was strengthened.
-/

namespace LinearTrace

open List Option Facts Peephole Nat Trace Std.HashMap

variable {origin merged failed : Nat} {α : Type} {after facts before : Facts} {effect : Effect}
  {progress : Progress} {guard : Operation} {stats : PeepholeStats} {output : Array Operation}
  {frames original : List (List Const)}

variable {target : Target} {trace : Trace} {op : Operation} {walk next : Peephole} {heap : Heap}

/-! ## Walks -/

/-- Handle one operation; nothing when the walk stops. -/
def Peephole.handle (walk : Peephole) (op : Operation) : Option Peephole :=
  match countedStep op walk with
  | .ok _ after => some after
  | .error _ _ => none

/-- The walk after the first operations of a trace. -/
def Trace.walkTo (target : Target) (trace : Trace) (count : Nat) : Option Peephole :=
  (trace.ops.take count).foldlM Peephole.handle (.start target trace)

/-- The output's operation at a position was emitted for the trace's operation at `origin`. -/
def Trace.EmittedFor (target : Target) (trace : Trace) (origin position : Nat) : Prop :=
  ∃ before after, trace.walkTo target origin = some before ∧
    trace.walkTo target (origin + 1) = some after ∧
      before.facts.output.size ≤ position ∧ position < after.facts.output.size

/-- The guard at a position is reached, and its snapshot has the given values there. -/
def SnapshotAt (heap : Heap) (start : Valuation) (ops : List Operation) (position : Nat)
    (frames : List (List Const)) : Prop :=
  ∃ guard valuation, ops[position]? = some guard ∧ guard.isGuard = true ∧
    runFrom heap start (ops.take position) = some (.running valuation) ∧
      valuation.frames guard.frames = some frames

theorem Trace.walkTo_succ {count : Nat} (found : trace.ops[count]? = some op) :
    trace.walkTo target (count + 1) = (trace.walkTo target count).bind (·.handle op) := by
  unfold walkTo
  rw [take_add_one, found, foldlM_append]
  exact congrArg _ (funext fun walk => bind_fun_some _)

theorem Peephole.foldlM_handle {ops : List Operation} {after : Peephole}
    (walked : (ops.forM countedStep) walk = .ok () after) :
    ops.foldlM handle walk = some after := by
  induction ops generalizing walk with
  | nil =>
    cases walked
    rfl
  | cons op rest ih =>
    change EStateM.bind (countedStep op) (fun _ => rest.forM countedStep) walk = .ok () after
      at walked
    unfold EStateM.bind at walked
    rw [foldlM_cons, handle]
    split at walked
    next stepped =>
      rw [stepped]
      exact ih walked
    · cases walked

/-- A simplified trace is the output of a walk over all operations. -/
theorem Trace.walkTo_of_simplify {output : Trace}
    (simplified : trace.simplify target = .ok (output, stats)) :
    ∃ walk, trace.walkTo target trace.ops.length = some walk ∧
      output.ops = walk.facts.output.toList := by
  unfold simplify at simplified
  split at simplified
  next walk walked =>
    cases simplified
    refine ⟨walk, ?_, rfl⟩
    rw [walkTo, take_length]
    exact foldlM_handle walked
  · cases simplified

/-! ### Walks step by step -/

theorem Peephole.forM_of_ok {rest : List Operation} (stepped : countedStep op walk = .ok () next) :
    ((op :: rest).forM countedStep) walk = (rest.forM countedStep) next := by
  change EStateM.bind (countedStep op) (fun _ => rest.forM countedStep) walk = _
  rw [EStateM.bind, stepped]

theorem Trace.simplify_of_forM
    (walked : (trace.ops.forM countedStep) (.start target trace) = .ok () walk) :
    ∃ output stats, trace.simplify target = .ok (output, stats) := by
  refine ⟨walk.facts.toTrace, walk.finalStats, ?_⟩
  rw [simplify, walked]

theorem Peephole.currentFacts_bind (next : Facts → PeepholeM α) (walk : Peephole) :
    (currentFacts >>= next) walk = next walk.facts walk :=
  rfl

theorem Peephole.lift_bind {β : Type} {read : Except Fault α} {value : α} (found : read = .ok value)
    (next : α → PeepholeM β) (walk : Peephole) :
    ((liftM read : PeepholeM α) >>= next) walk = next value walk := by
  subst found
  rfl

theorem Peephole.onFacts_of_ok (walk : Peephole) {work : FactsM α} {value : α}
    (worked : work walk.facts = .ok value facts) :
    onFacts work walk = .ok value { walk with facts := facts } := by
  unfold onFacts
  dsimp only
  rw [worked]

theorem Peephole.emit_of_ok (walk : Peephole) {appended : Bool}
    (emitted : Facts.emit op walk.facts = .ok appended facts) :
    emit op walk = .ok () { walk with facts := facts } := by
  change EStateM.bind (onFacts (Facts.emit op)) (fun _ => pure ()) _ = _
  rw [EStateM.bind, onFacts_of_ok walk emitted]
  rfl

/-! ## Strengthened guards -/

section

variable {heap : Heap} {start reached : Valuation} {ops : List Operation}
  {earlier stronger : Operation} {position : Nat}

theorem take_set_of_le {before : Nat} (below : before ≤ position) :
    (ops.set position stronger).take before = ops.take before := by
  rw [take_set]
  exact set_eq_of_length_le ((length_take_le before ops).trans below)

theorem runFrom_take_set (found : ops[position]? = some earlier)
    (runs : runFrom heap start (ops.take position) = some (.running reached))
    (same : stronger.execute heap reached = earlier.execute heap reached) (count : Nat) :
    runFrom heap start ((ops.set position stronger).take count) =
      runFrom heap start (ops.take count) := by
  rcases lt_or_ge position count with after | before
  · rw [take_set]
    refine runFrom_set ?_ ?_ same
    · rw [getElem?_take_of_lt after]
      exact found
    · rw [take_take, min_eq_left (le_of_lt after)]
      exact runs
  · rw [take_set_of_le before]

theorem runFrom_take_of_failed (found : ops[position]? = some guard) (isGuard : guard.isGuard)
    (runs : runFrom heap start (ops.take position) = some (.running reached))
    (fails : guard.checked heap reached = some false)
    (defined : reached.frames guard.frames = some frames) :
    runFrom heap start (ops.take (position + 1)) = some (.left position frames) := by
  rw [runFrom_take_succ found, runs]
  change (guard.execute heap reached).map _ = _
  rw [guard.execute_of_failed isGuard fails defined]
  rfl

end

/-! ## Runs in step -/

section

variable {heap : Heap} {target : Target} {trace : Trace} {start : Valuation} {unmerged : Prop}

variable {position : Nat} {earlier stronger : Operation}

/-- The output's run reaches the position, where a guard stands with the snapshot of the trace's
guard for which it was emitted. -/
structure Traced (heap : Heap) (target : Target) (trace : Trace) (start : Valuation)
    (output : Array Operation) (position origin : Nat) (reached : Valuation) : Prop where
  runs : runFrom heap start (output.toList.take position) = some (.running reached)
  emitted : trace.EmittedFor target origin position
  carries : ∀ guard, output[position]? = some guard → ∃ frames,
    reached.frames guard.frames = some frames ∧ SnapshotAt heap start trace.ops origin frames

/-- Both runs go on. -/
structure Ongoing (heap : Heap) (target : Target) (trace : Trace) (start : Valuation)
    (count : Nat) (facts : Facts) (valuation reached : Valuation) : Prop where
  runs : runFrom heap start facts.output.toList = some (.running reached)
  follows : facts.Follows heap valuation reached
  traced : ∀ position guard, facts.output[position]? = some guard → guard.isGuard = true →
    ∃ origin earlier, origin < count ∧ valuation.Extends earlier ∧
      Traced heap target trace start facts.output position origin earlier

/-- The trace's run has left at the guard at `failed`, and the output's run leaves with the
snapshot of a guard that is not later; without merges, of that very guard. -/
structure Departed (heap : Heap) (target : Target) (trace : Trace) (start : Valuation)
    (unmerged : Prop) (failed : Nat) (original : List (List Const)) (output : Array Operation)
    (position : Nat) (frames : List (List Const)) : Prop where
  leaves : runFrom heap start (output.toList.take (position + 1)) = some (.left position frames)
  inside : position < output.size
  origin : ∃ origin, origin ≤ failed ∧ (unmerged → origin = failed ∧ frames = original) ∧
    trace.EmittedFor target origin position ∧ SnapshotAt heap start trace.ops origin frames
  traced : ∀ earlier guard, earlier ≤ position → output[earlier]? = some guard →
    guard.isGuard = true → ∃ origin reached, origin ≤ failed ∧
      Traced heap target trace start output earlier origin reached

/-- The run of the output is in step with the run of the first operations of the trace. -/
def InStep (heap : Heap) (target : Target) (trace : Trace) (start : Valuation) (unmerged : Prop)
    (count : Nat) (facts : Facts) : Progress → Prop
  | .running valuation => ∃ reached, Ongoing heap target trace start count facts valuation reached
  | .left failed original => ∃ position frames,
      Departed heap target trace start unmerged failed original facts.output position frames
  | .jumped _ => False

section

variable {reached : Valuation}
  (traced : Traced heap target trace start output position origin reached)

include traced

theorem Traced.push (inside : position < output.size) (op : Operation) :
    Traced heap target trace start (output.push op) position origin reached where
  runs := by
    rw [Array.toList_push, take_append_of_le_length (le_of_lt inside)]
    exact traced.runs
  emitted := traced.emitted
  carries guard found := by
    rw [Array.getElem?_push_lt inside, ← Array.getElem?_eq_getElem inside] at found
    exact traced.carries guard found

/-- A guard stays traced when another, or itself, is strengthened where the run passes it. -/
theorem Traced.strengthen (found : output[merged]? = some earlier)
    (frames : stronger.frames = earlier.frames)
    (runs : runFrom heap start ((output.toList.set merged stronger).take position) =
      some (.running reached)) :
    Traced heap target trace start (output.setIfInBounds merged stronger) position origin
      reached where
  runs := by
    rw [Array.toList_setIfInBounds]
    exact runs
  emitted := traced.emitted
  carries guard isGuard := by
    by_cases same : merged = position
    · subst same
      obtain ⟨inside, _⟩ := Array.getElem?_eq_some_iff.mp found
      rw [Array.getElem?_setIfInBounds_self_of_lt inside] at isGuard
      cases isGuard
      rw [frames]
      exact traced.carries earlier found
    · rw [Array.getElem?_setIfInBounds_ne same] at isGuard
      exact traced.carries guard isGuard

end

theorem guard_of_strengthened (found : output[merged]? = some earlier) (wasGuard : earlier.isGuard)
    (isFound : (output.setIfInBounds merged stronger)[position]? = some guard)
    (isGuard : guard.isGuard) : ∃ old, output[position]? = some old ∧ old.isGuard := by
  by_cases same : merged = position
  · subst same
    exact ⟨earlier, found, wasGuard⟩
  · rw [Array.getElem?_setIfInBounds_ne same] at isFound
    exact ⟨guard, isFound, isGuard⟩

theorem departed_of_strengthened {reached : Valuation} (isMerged : ¬ unmerged)
    (found : output[merged]? = some earlier) (strengthens : stronger.Strengthens heap earlier)
    (notLater : origin ≤ failed)
    (traced : Traced heap target trace start output merged origin reached)
    (fails : stronger.checked heap reached = some false)
    (others : ∀ position guard, position ≤ merged → output[position]? = some guard →
      guard.isGuard → ∃ origin reached, origin ≤ failed ∧
        Traced heap target trace start output position origin reached) :
    ∃ frames, Departed heap target trace start unmerged failed original
      (output.setIfInBounds merged stronger) merged frames := by
  obtain ⟨inside, _⟩ := Array.getElem?_eq_some_iff.mp found
  obtain ⟨frames, defined, snapshot⟩ := traced.carries earlier found
  rw [← strengthens.frames] at defined
  have before : ∀ position, position ≤ merged →
      (output.toList.set merged stronger).take position = output.toList.take position :=
    fun position below => take_set_of_le below
  have placed : (output.toList.set merged stronger)[merged]? = some stronger :=
    getElem?_set_self inside
  refine ⟨frames, ?_, ?_, ⟨origin, notLater, fun none => absurd none isMerged, traced.emitted,
    snapshot⟩, ?_⟩
  · rw [Array.toList_setIfInBounds]
    refine runFrom_take_of_failed placed strengthens.isGuard ?_ fails defined
    rw [before merged (Nat.le_refl merged)]
    exact traced.runs
  · rw [Array.size_setIfInBounds]
    exact inside
  · intro position guard below isFound isGuard
    obtain ⟨old, oldFound, wasGuard⟩ :=
      guard_of_strengthened found strengthens.wasGuard isFound isGuard
    obtain ⟨origin, reached, notLater, traced⟩ := others position old below oldFound wasGuard
    refine ⟨origin, reached, notLater, traced.strengthen found strengthens.frames ?_⟩
    rw [before position below]
    exact traced.runs

/-- A strengthened guard that the output's run does not reach, or still passes. -/
theorem Departed.strengthen
    (departed : Departed heap target trace start unmerged failed original output position frames)
    (found : output[merged]? = some earlier) (strengthens : stronger.Strengthens heap earlier)
    (same : ∀ count, count ≤ position + 1 →
      runFrom heap start ((output.toList.set merged stronger).take count) =
        runFrom heap start (output.toList.take count)) :
    Departed heap target trace start unmerged failed original
      (output.setIfInBounds merged stronger) position frames := by
  refine ⟨?_, ?_, departed.origin, ?_⟩
  · rw [Array.toList_setIfInBounds, same _ (Nat.le_refl _)]
    exact departed.leaves
  · rw [Array.size_setIfInBounds]
    exact departed.inside
  intro other guard below isFound isGuard
  obtain ⟨old, oldFound, wasGuard⟩ :=
    guard_of_strengthened found strengthens.wasGuard isFound isGuard
  obtain ⟨origin, reached, notLater, traced⟩ := departed.traced other old below oldFound wasGuard
  refine ⟨origin, reached, notLater, traced.strengthen found strengthens.frames ?_⟩
  rw [same other (le_succ_of_le below)]
  exact traced.runs

/-- Once the trace's run has left, no step makes the output's run go on. -/
theorem Departed.advance {op : Operation}
    (departed : Departed heap target trace start unmerged failed original before.output position
      frames) (advance : Advance heap op before after) (noPointers : unmerged → before.NoPointers) :
    ∃ position frames,
      Departed heap target trace start unmerged failed original after.output position frames := by
  cases advance with
  | passed output =>
    rw [output]
    exact ⟨position, frames, departed⟩
  | @appended emitted output =>
    have shorter : position + 1 ≤ before.output.toList.length := departed.inside
    refine ⟨position, frames, ?_, ?_, departed.origin, ?_⟩
    · rw [output, Array.toList_push, take_append_of_le_length shorter]
      exact departed.leaves
    · rw [output, Array.size_push]
      exact lt_succ_of_lt departed.inside
    intro earlier guard below found isGuard
    have inside := lt_of_le_of_lt below departed.inside
    rw [output] at found ⊢
    rw [Array.getElem?_push_lt inside, ← Array.getElem?_eq_getElem inside] at found
    obtain ⟨origin, reached, notLater, traced⟩ :=
      departed.traced earlier guard below found isGuard
    exact ⟨origin, reached, notLater, traced.push inside emitted⟩
  | @merged merged earlier stronger isGuard known found output strengthens =>
    rw [output]
    rcases lt_or_ge position merged with beyond | within
    · refine ⟨position, frames, departed.strengthen found strengthens fun count below => ?_⟩
      rw [take_set_of_le (below.trans beyond)]
    obtain ⟨origin, reached, notLater, traced⟩ :=
      departed.traced merged earlier within found strengthens.wasGuard
    have listed : before.output.toList[merged]? = some earlier := by
      rw [Array.getElem?_toList]
      exact found
    obtain ⟨passes, checked⟩ : ∃ passes, earlier.checked heap reached = some passes := by
      rcases runFrom_guard (runFrom_of_take_left departed.leaves) listed strengthens.wasGuard
        traced.runs with passes | ⟨_, fails, _⟩
      · exact ⟨true, passes⟩
      · exact ⟨false, fails⟩
    obtain ⟨verdict, decided, stricter⟩ := strengthens.checked reached passes checked
    cases verdict with
    | false =>
      have isMerged : ¬ unmerged := fun none => known (noPointers none)
      obtain ⟨frames, departed⟩ := departed_of_strengthened isMerged found strengthens
        notLater traced decided fun other guard below =>
          departed.traced other guard (below.trans within)
      exact ⟨merged, frames, departed⟩
    | true =>
      rw [stricter rfl] at checked
      have same : stronger.execute heap reached = earlier.execute heap reached := by
        rw [stronger.execute_of_checked strengthens.isGuard decided,
          earlier.execute_of_checked strengthens.wasGuard checked]
      exact ⟨position, frames, departed.strengthen found strengthens
        fun count _ => runFrom_take_set listed traced.runs same count⟩

/-! ### While both runs go on -/

variable {count : Nat} {op : Operation} {walk next : Peephole} {valuation reached : Valuation}

section

variable (ongoing : Ongoing heap target trace start count walk.facts valuation reached)

include ongoing

/-- The guards of the output after an operation was appended: the new one stands for the
operation that was handled. -/
theorem Ongoing.traced_append (found : trace.ops[count]? = some op)
    (walked : trace.walkTo target count = some walk)
    (stepped : trace.walkTo target (count + 1) = some next)
    (runs : runFrom heap start (trace.ops.take count) = some (.running valuation))
    {emitted : Operation} (output : next.facts.output = walk.facts.output.push emitted)
    (isGuard : emitted.isGuard = op.isGuard)
    (framed : op.isGuard → ∃ frames, valuation.frames op.frames = some frames ∧
      reached.frames emitted.frames = some frames) :
    ∀ position guard, next.facts.output[position]? = some guard → guard.isGuard →
      ∃ origin earlier, origin ≤ count ∧ valuation.Extends earlier ∧
        Traced heap target trace start next.facts.output position origin earlier := by
  have size : next.facts.output.size = walk.facts.output.size + 1 := by
    rw [output, Array.size_push]
  intro position guard isFound guardIs
  rcases lt_or_ge position walk.facts.output.size with inside | beyond
  · rw [output, Array.getElem?_push_lt inside, ← Array.getElem?_eq_getElem inside] at isFound
    obtain ⟨origin, earlier, before, above, traced⟩ :=
      ongoing.traced position guard isFound guardIs
    rw [output]
    exact ⟨origin, earlier, le_of_lt before, above, traced.push inside emitted⟩
  obtain ⟨inside, _⟩ := Array.getElem?_eq_some_iff.mp isFound
  obtain rfl : position = walk.facts.output.size := by omega
  have isEmitted := isFound
  rw [output, Array.getElem?_push_size] at isEmitted
  cases isEmitted
  rw [isGuard] at guardIs
  obtain ⟨literals, defined, carried⟩ := framed guardIs
  refine ⟨count, reached, Nat.le_refl _, ongoing.follows.above, ?_,
    ⟨walk, next, walked, stepped, Nat.le_refl _, inside⟩, ?_⟩
  · rw [output, Array.toList_push, ← Array.length_toList, take_left]
    exact ongoing.runs
  · intro other isOther
    cases isFound.symm.trans isOther
    exact ⟨literals, carried, op, valuation, found, guardIs, runs, defined⟩

theorem Ongoing.merge (isGuard : op.isGuard) (isMerged : ¬ unmerged)
    (found : walk.facts.output[merged]? = some earlier)
    (output : next.facts.output = walk.facts.output.setIfInBounds merged stronger)
    (strengthens : stronger.Strengthens heap earlier)
    (decides : ∀ reached verdict, valuation.Extends reached →
      earlier.checked heap reached = some true → op.checked heap valuation = some verdict →
        stronger.checked heap reached = some verdict)
    (learned : op.checked heap valuation = some true → next.facts.Follows heap valuation reached)
    (executed : op.execute heap valuation = some effect) :
    InStep heap target trace start unmerged (count + 1) next.facts (effect.progress count) := by
  obtain ⟨origin, past, before, above, traced⟩ :=
    ongoing.traced merged earlier found strengthens.wasGuard
  have listed : walk.facts.output.toList[merged]? = some earlier := by
    rw [Array.getElem?_toList]
    exact found
  have passed : earlier.checked heap past = some true := by
    rcases runFrom_guard ongoing.runs listed strengthens.wasGuard traced.runs with
      passes | ⟨_, _, _, left⟩
    · exact passes
    · cases left
  rcases op.cases_execute_guard isGuard executed with ⟨checked, rfl⟩ | ⟨frames, checked, _, rfl⟩
  · have same : stronger.execute heap past = earlier.execute heap past := by
      rw [stronger.execute_of_checked strengthens.isGuard (decides past true above passed checked),
        earlier.execute_of_checked strengthens.wasGuard passed]
    refine ⟨reached, ?_, learned checked, ?_⟩
    · rw [output, Array.toList_setIfInBounds, runFrom_set listed traced.runs same]
      exact ongoing.runs
    intro position guard isFound guardIs
    rw [output] at isFound ⊢
    obtain ⟨old, oldFound, wasGuard⟩ :=
      guard_of_strengthened found strengthens.wasGuard isFound guardIs
    obtain ⟨origin, other, before, above, oldTraced⟩ :=
      ongoing.traced position old oldFound wasGuard
    refine ⟨origin, other, lt_succ_of_lt before, above,
      oldTraced.strengthen found strengthens.frames ?_⟩
    rw [runFrom_take_set listed traced.runs same]
    exact oldTraced.runs
  · have fails := decides past false above passed checked
    obtain ⟨outFrames, departed⟩ := departed_of_strengthened isMerged found strengthens
      (le_of_lt before) traced fails fun position guard _ isFound guardIs => by
        obtain ⟨origin, other, before, _, traced⟩ := ongoing.traced position guard isFound guardIs
        exact ⟨origin, other, le_of_lt before, traced⟩
    rw [← output] at departed
    exact ⟨merged, outFrames, departed⟩

/-- While both runs go on, a step keeps them in step, or both leave. -/
theorem Ongoing.advance (found : trace.ops[count]? = some op)
    (walked : trace.walkTo target count = some walk)
    (stepped : trace.walkTo target (count + 1) = some next)
    (runs : runFrom heap start (trace.ops.take count) = some (.running valuation))
    (fresh : op.FreshIn valuation)
    (framed : op.isGuard → ∃ frames, valuation.frames op.frames = some frames)
    (advance : Advance heap op walk.facts next.facts)
    (noPointers : unmerged → walk.facts.NoPointers)
    (executed : op.execute heap valuation = some effect) :
    InStep heap target trace start unmerged (count + 1) next.facts (effect.progress count) := by
  cases advance with
  | passed output sound =>
    obtain ⟨further, rfl, extended, follows⟩ :=
      sound valuation reached effect ongoing.follows fresh executed
    refine ⟨reached, ?_, follows, ?_⟩
    · rw [output]
      exact ongoing.runs
    rw [output]
    intro position guard isFound isGuard
    obtain ⟨origin, earlier, before, above, traced⟩ :=
      ongoing.traced position guard isFound isGuard
    exact ⟨origin, earlier, lt_succ_of_lt before, extended.trans above, traced⟩
  | @appended emitted output isGuard sound carries =>
    have traced := ongoing.traced_append found walked stepped runs output isGuard fun guardIs => by
      obtain ⟨frames, defined⟩ := framed guardIs
      exact ⟨frames, defined, carries guardIs valuation reached frames ongoing.follows defined⟩
    have whole : runFrom heap start next.facts.output.toList =
        (emitted.execute heap reached).map (Effect.progress walk.facts.output.size) := by
      rw [output, Array.toList_push, runFrom_concat, ongoing.runs]
      rfl
    rcases sound valuation reached effect ongoing.follows fresh executed with
      ⟨further, furtherReached, rfl, extended, continues, follows⟩ | ⟨frames, rfl, leaves⟩
    · refine ⟨furtherReached, ?_, follows, ?_⟩
      · rw [whole, continues]
        rfl
      · intro position guard isFound guardIs
        obtain ⟨origin, earlier, notLater, above, traced⟩ := traced position guard isFound guardIs
        exact ⟨origin, earlier, lt_succ_of_le notLater, extended.trans above, traced⟩
    have guardIs := op.isGuard_of_leave executed
    have defined : valuation.frames op.frames = some frames := by
      rcases op.cases_execute_guard guardIs executed with ⟨_, next⟩ | ⟨_, _, defined, same⟩
      · cases next
      · cases same
        exact defined
    have size : next.facts.output.size = walk.facts.output.size + 1 := by
      rw [output, Array.size_push]
    have inside : walk.facts.output.size < next.facts.output.size := by omega
    refine ⟨walk.facts.output.size, frames, ?_, inside, ?_, ?_⟩
    · rw [← size, ← Array.length_toList, take_length, whole, leaves]
      rfl
    · exact ⟨count, Nat.le_refl _, fun _ => ⟨rfl, rfl⟩,
        ⟨walk, next, walked, stepped, Nat.le_refl _, inside⟩,
        op, valuation, found, guardIs, runs, defined⟩
    · intro position guard _ isFound guardIs
      obtain ⟨origin, earlier, notLater, _, traced⟩ := traced position guard isFound guardIs
      exact ⟨origin, earlier, notLater, traced⟩
  | merged isGuard known isFound output strengthens decides sound =>
    exact ongoing.merge isGuard (fun none => known (noPointers none)) isFound output strengthens
      (fun reached verdict above => decides valuation reached verdict ongoing.follows.holds above)
      (sound valuation reached ongoing.follows) executed

end

end

/-! ## Whole walks -/

/-- One more operation was read. -/
def Peephole.counted (walk : Peephole) : Peephole :=
  { walk with stats := { walk.stats with opsIn := walk.stats.opsIn + 1 } }

theorem Peephole.step_of_handle
    (handled : walk.handle op = some next) : step op walk.counted = .ok () next := by
  unfold handle at handled
  split at handled
  next stepped =>
    cases handled
    exact stepped
  · cases handled

theorem Peephole.of_handle (excuse : Prop)
    (post : Facts → Prop) (handled : walk.handle op = some next)
    (ensured : ∀ counted : Peephole, counted.facts = walk.facts →
      Ensures excuse (step op) counted fun _ after => post after.facts) : post next.facts :=
  (ensured walk.counted rfl).of_ok (step_of_handle handled)

/-- What each step keeps of the facts holds wherever a walk has come. -/
theorem Trace.facts_of_walkTo {invariant : Facts → Prop} {count : Nat}
    (initial : invariant (start target trace))
    (keeps : ∀ op ∈ trace.ops, ∀ walk : Peephole, invariant walk.facts →
      Ensures True (step op) walk fun _ after => invariant after.facts)
    (walked : trace.walkTo target count = some walk) : invariant walk.facts := by
  have kept {ops : List Operation} {before : Peephole} (known : ∀ op ∈ ops, op ∈ trace.ops)
      (initial : invariant before.facts) (walked : ops.foldlM Peephole.handle before = some walk) :
      invariant walk.facts := by
    induction ops generalizing before with
    | nil =>
      cases walked
      exact initial
    | cons op rest ih =>
      obtain ⟨next, handled, walked⟩ := bind_eq_some_iff.mp walked
      refine ih (fun op isOp => known op (mem_cons_of_mem _ isOp)) ?_ walked
      exact of_handle True invariant handled fun counted same =>
        keeps op (known op mem_cons_self) counted (same ▸ initial)
  exact kept (fun _ => mem_of_mem_take) initial walked

theorem Peephole.handle_frame
    (handled : walk.handle op = some next) (opcode : op.opcode = .label ∨ op.opcode = .jump)
    (isVoid : op.result = none) : next.facts = walk.facts.afterEmit op := by
  refine of_handle False (· = walk.facts.afterEmit op) handled fun counted same => ?_
  rw [← same]
  exact step_frame counted opcode isVoid

theorem stepped_label (coherent : facts.Coherent) (opcode : op.opcode = .label)
    (isVoid : op.result = none) : Stepped heap op facts (facts.afterEmit op) := by
  have grows := grows_afterEmit facts isVoid
  have notGuard : op.isGuard = false := by rw [Operation.isGuard, opcode]; rfl
  have resolvedLabel : (facts.resolveOperation op).opcode = .label := opcode
  refine ⟨.appended grows.output rfl ?_ ?_, coherent.grow grows, grows.target⟩
  · intro valuation reached effect follows _ executed
    rw [op.execute_label opcode] at executed
    cases executed
    exact .inl ⟨valuation, reached, rfl, Valuation.Extends.refl _,
      Operation.execute_label resolvedLabel heap reached,
      follows.learn grows.replaced (follows.holds.afterEmit isVoid)⟩
  · intro guard
    rw [notGuard] at guard
    cases guard

/-- The first operation of the output is not a guard, so nothing overwrites it. -/
theorem Advance.head {head : Operation} (advance : Advance heap op before after)
    (found : before.output[0]? = some head) (notGuard : head.isGuard = false) :
    after.output[0]? = some head := by
  cases advance with
  | passed output =>
    rw [output]
    exact found
  | @appended emitted output =>
    rw [output]
    exact push_getElem?_of_some found emitted
  | @merged position earlier stronger isGuard known isFound output strengthens =>
    have apart : position ≠ 0 := by
      rintro rfl
      cases found.symm.trans isFound
      rw [strengthens.wasGuard] at notGuard
      cases notGuard
    rw [output, Array.getElem?_setIfInBounds_ne apart]
    exact found

/-- A label, operations that satisfy a condition, and a jump. -/
structure Bracketed (member : Operation → Prop) (ops : List Operation) (label : Operation)
    (middle : List Operation) (jump : Operation) : Prop where
  shape : ops = label :: (middle ++ [jump])
  isLabel : label.opcode = .label
  labelIsVoid : label.result = none
  isJump : jump.opcode = .jump
  jumpIsVoid : jump.result = none
  members : ∀ op ∈ middle, member op

namespace Bracketed

variable {member : Operation → Prop} {ops middle : List Operation} {label jump op : Operation}
  {position : Nat}

section

variable (bracketed : Bracketed member ops label middle jump)

include bracketed

theorem length : ops.length = middle.length + 2 := by
  rw [bracketed.shape, length_cons, length_append]
  rfl

/-- Before the jump there is the label, and then members. -/
theorem cases_getElem? (before : position < middle.length + 1) (found : ops[position]? = some op) :
    (position = 0 ∧ op = label) ∨ member op := by
  rw [bracketed.shape] at found
  cases position with
  | zero =>
    cases found
    exact .inl ⟨rfl, rfl⟩
  | succ position =>
    rw [getElem?_cons_succ,
      getElem?_append_left (lt_of_succ_lt_succ before)] at found
    exact .inr (bracketed.members op (mem_of_getElem? found))

theorem getElem?_jump : ops[middle.length + 1]? = some jump := by
  rw [bracketed.shape, getElem?_cons_succ, getElem?_append_right (Nat.le_refl _),
    Nat.sub_self]
  rfl

end

end Bracketed

/-- Every member is handled soundly, and the walk keeps a condition on what it knows about
references. -/
structure SoundSteps (heap : Heap) (member : Operation → Prop) (invariant : Facts → Prop) :
    Prop where
  kept : ∀ before after : Facts, after.target = before.target →
    after.pointers = before.pointers → invariant before → invariant after
  step : ∀ op (walk next : Peephole), member op → walk.facts.Coherent → invariant walk.facts →
    walk.handle op = some next → Stepped heap op walk.facts next.facts ∧ invariant next.facts

theorem Facts.holds_start (heap : Heap) (target : Target) (trace : Trace) (valuation : Valuation) :
    (Facts.start target trace).Holds heap valuation := by
  refine ⟨Replacements.acyclic_empty, ?_, ?_, ?_, ?_, ?_⟩
  · intro box value entry
    rw [Facts.start, getElem?_empty] at entry
    cases entry
  · intro box interval entry
    rw [Facts.start, getElem?_empty] at entry
    cases entry
  · intro box fact entry
    rw [Facts.start, getElem?_empty] at entry
    cases entry
  · intro opcode args result found
    rw [KnownResults.lookup, Facts.start, getElem?_empty] at found
    cases found
  · intro box position entry
    rw [Facts.start, getElem?_empty] at entry
    cases entry

theorem ongoing_start (heap : Heap) (target : Target) (trace : Trace) (start : Valuation) :
    Ongoing heap target trace start 0 (Facts.start target trace) start start where
  runs := rfl
  follows := ⟨holds_start heap target trace start, fun _ _ defined _ => defined,
    Valuation.Extends.refl start⟩
  traced position guard found := by cases found

section

variable {heap : Heap} {target : Target} {trace : Trace} {member : Operation → Prop}
  {invariant : Facts → Prop} {label jump : Operation} {middle : List Operation}
  {inputs : Box → Const}

variable {count : Nat} {walk : Peephole}

theorem stepped_of_handle (bracketed : Bracketed member trace.ops label middle jump)
    (sound : SoundSteps heap member invariant) (before : count < middle.length + 1) {op : Operation}
    (found : trace.ops[count]? = some op) {next : Peephole}
    (well : walk.facts.Coherent ∧ invariant walk.facts) (handled : walk.handle op = some next) :
    Stepped heap op walk.facts next.facts ∧ next.facts.Coherent ∧ invariant next.facts := by
  rcases bracketed.cases_getElem? before found with ⟨_, rfl⟩ | isMember
  · have grows := grows_afterEmit walk.facts bracketed.labelIsVoid
    have stepped : Stepped heap op walk.facts (walk.facts.afterEmit op) :=
      stepped_label well.1 bracketed.isLabel bracketed.labelIsVoid
    rw [handle_frame handled (.inl bracketed.isLabel) bracketed.labelIsVoid]
    exact ⟨stepped, stepped.coherent, sound.kept _ _ grows.target grows.pointers well.2⟩
  · obtain ⟨stepped, kept⟩ := sound.step op walk next isMember well.1 well.2 handled
    exact ⟨stepped, stepped.coherent, kept⟩

/-- A walk before the jump, cut into its last step and what comes before. -/
theorem Trace.walkTo_succ_eq_some (inside : count < trace.ops.length)
    (walked : trace.walkTo target (count + 1) = some walk) :
    ∃ op previous, trace.ops[count]? = some op ∧ trace.walkTo target count = some previous ∧
      previous.handle op = some walk := by
  have found := getElem?_eq_getElem inside
  rw [walkTo_succ found] at walked
  obtain ⟨previous, walkedTo, handled⟩ := bind_eq_some_iff.mp walked
  exact ⟨_, previous, found, walkedTo, handled⟩

section

variable (bracketed : Bracketed member trace.ops label middle jump)
  (sound : SoundSteps heap member invariant) (initial : invariant (Facts.start target trace))

include bracketed sound initial

/-- Whatever the runs do, the facts stay well-formed and the condition is kept. -/
theorem invariant_of_walkTo (before : count ≤ middle.length + 1)
    (walked : trace.walkTo target count = some walk) :
    walk.facts.Coherent ∧ invariant walk.facts := by
  induction count generalizing walk with
  | zero =>
    cases walked
    exact ⟨remembers_start _ target trace, initial⟩
  | succ count ih =>
    have inside : count < trace.ops.length := by
      have := bracketed.length
      omega
    obtain ⟨op, previous, found, walkedTo, handled⟩ := walkTo_succ_eq_some inside walked
    exact (stepped_of_handle bracketed sound before found
      (ih (le_of_succ_le before) walkedTo) handled).2

theorem head_of_walkTo (before : count ≤ middle.length)
    (walked : trace.walkTo target (count + 1) = some walk) :
    walk.facts.output[0]? = some ((Facts.start target trace).resolveOperation label) := by
  have length := bracketed.length
  induction count generalizing walk with
  | zero =>
    obtain ⟨op, previous, found, walkedTo, handled⟩ :=
      walkTo_succ_eq_some (by omega) walked
    cases walkedTo
    rw [bracketed.shape] at found
    cases found
    rw [handle_frame handled (.inl bracketed.isLabel) bracketed.labelIsVoid,
      (grows_afterEmit _ bracketed.labelIsVoid).output]
    rfl
  | succ count ih =>
    obtain ⟨op, previous, found, walkedTo, handled⟩ :=
      walkTo_succ_eq_some (by omega) walked
    have well := invariant_of_walkTo bracketed sound initial (by omega) walkedTo
    have stepped := (stepped_of_handle bracketed sound (by omega) found well handled).1
    have notGuard : ((Facts.start target trace).resolveOperation label).isGuard = false := by
      change label.opcode.isGuard = false
      rw [bracketed.isLabel]
      rfl
    exact stepped.advance.head (ih (le_of_succ_le before) walkedTo) notGuard

end

/-- Along a walk the two runs stay in step, up to the jump. -/
theorem inStep_of_walkTo (bracketed : Bracketed member trace.ops label middle jump)
    (inScope : Scoped trace.ops) (results : ResultsAreIntegral trace.ops)
    (sound : SoundSteps heap member invariant) (initial : invariant (start target trace))
    (before : count ≤ middle.length + 1) (walked : trace.walkTo target count = some walk)
    (ran : runFrom heap (entry trace.ops inputs) (trace.ops.take count) = some progress) :
    InStep heap target trace (entry trace.ops inputs)
      (∀ facts, invariant facts → facts.NoPointers) count walk.facts progress := by
  induction count generalizing walk progress with
  | zero =>
    cases walked
    cases ran
    exact ⟨_, ongoing_start heap target trace _⟩
  | succ count ih =>
    have inside : count < trace.ops.length := by
      have := bracketed.length
      omega
    obtain ⟨op, previous, found, walkedTo, handled⟩ := walkTo_succ_eq_some inside walked
    have below := le_of_succ_le before
    have well := invariant_of_walkTo bracketed sound initial below walkedTo
    have advance := (stepped_of_handle bracketed sound before found well handled).1.advance
    have noPointers : (∀ facts, invariant facts → facts.NoPointers) →
        previous.facts.NoPointers := fun none => none _ well.2
    rw [runFrom_take_succ found] at ran
    obtain ⟨earlier, ranTo, advanced⟩ := bind_eq_some_iff.mp ran
    have inStep := ih below walkedTo ranTo
    cases earlier with
    | running valuation =>
      obtain ⟨reached, ongoing⟩ := inStep
      obtain ⟨effect, executed, rfl⟩ := map_eq_some_iff.mp advanced
      exact ongoing.advance found walkedTo walked ranTo (inScope.freshIn results found ranTo)
        (fun _ => inScope.values_frames results found ranTo) advance noPointers executed
    | left failed original =>
      cases advanced
      obtain ⟨position, frames, departed⟩ := inStep
      exact departed.advance advance noPointers
    | jumped args => exact inStep.elim

theorem entry_eq_of_head {ops other : List Operation} {first second : Operation}
    (head : ops[0]? = some first) (otherHead : other[0]? = some second)
    (same : first.args = second.args) (inputs : Box → Const) :
    entry ops inputs = entry other inputs := by
  cases ops with
  | nil => cases head
  | cons label rest =>
    cases other with
    | nil => cases otherHead
    | cons otherLabel others =>
      cases head
      cases otherHead
      funext box
      change (if .box box ∈ first.args then some (inputs box) else none) =
        if .box box ∈ second.args then some (inputs box) else none
      rw [same]

theorem Facts.resolve_start (target : Target) (trace : Trace) (value : Value) :
    (start target trace).resolve value = value := by
  refine resolve_of_isFinal ?_
  cases value with
  | const literal => exact trivial
  | box box => exact getElem?_empty

theorem entry_of_walkTo (bracketed : Bracketed member trace.ops label middle jump)
    (sound : SoundSteps heap member invariant) (initial : invariant (Facts.start target trace))
    (walked : trace.walkTo target (middle.length + 1) = some walk) (rest : List Operation)
    (inputs : Box → Const) :
    entry (walk.facts.output.toList ++ rest) inputs = entry trace.ops inputs := by
  have head := head_of_walkTo bracketed sound initial (Nat.le_refl _) walked
  obtain ⟨inside, _⟩ := Array.getElem?_eq_some_iff.mp head
  have outputHead : (walk.facts.output.toList ++ rest)[0]? =
      some ((Facts.start target trace).resolveOperation label) := by
    rw [getElem?_append_left inside, Array.getElem?_toList]
    exact head
  have traceHead : trace.ops[0]? = some label := by
    rw [bracketed.shape]
    rfl
  refine entry_eq_of_head outputHead traceHead ?_ inputs
  exact (map_congr_left fun value _ => resolve_start target trace value).trans
    (List.map_id label.args)

/-- A simplified trace runs like the trace: it reaches the jump with the same values, or leaves
with the snapshot of a guard that is not later than the failing one. -/
theorem run_of_simplify (bracketed : Bracketed member trace.ops label middle jump)
    (inScope : Scoped trace.ops) (results : ResultsAreIntegral trace.ops)
    (sound : SoundSteps heap member invariant) (initial : invariant (start target trace))
    {output : Trace} (simplified : trace.simplify target = .ok (output, stats))
    (ran : run heap trace.ops inputs = some progress) :
    (∃ args, progress = .jumped args ∧ run heap output.ops inputs = some (.jumped args)) ∨
    ∃ failed original position frames origin, progress = .left failed original ∧
      run heap output.ops inputs = some (.left position frames) ∧ origin ≤ failed ∧
      ((∀ facts, invariant facts → facts.NoPointers) → origin = failed ∧ frames = original) ∧
      trace.EmittedFor target origin position ∧
      SnapshotAt heap (entry trace.ops inputs) trace.ops origin frames := by
  obtain ⟨final, walked, isOutput⟩ := walkTo_of_simplify simplified
  have length := bracketed.length
  rw [length] at walked
  obtain ⟨op, walk, found, walkedTo, handled⟩ := walkTo_succ_eq_some (by omega) walked
  cases bracketed.getElem?_jump.symm.trans found
  rw [handle_frame handled (.inr bracketed.isJump) bracketed.jumpIsVoid,
    (grows_afterEmit walk.facts bracketed.jumpIsVoid).output, Array.toList_push] at isOutput
  have all : trace.ops.take (middle.length + 2) = trace.ops := take_of_length_le (by omega)
  have whole : runFrom heap (entry trace.ops inputs) (trace.ops.take (middle.length + 2)) = _ :=
    runFrom_take_succ found
  rw [all] at whole
  unfold run at ran ⊢
  rw [isOutput, entry_of_walkTo bracketed sound initial walkedTo, runFrom_concat]
  rw [whole] at ran
  obtain ⟨earlier, ranTo, advanced⟩ := bind_eq_some_iff.mp ran
  have inStep := inStep_of_walkTo bracketed inScope results sound initial (Nat.le_refl _) walkedTo
    ranTo
  cases earlier with
  | running valuation =>
    obtain ⟨reached, ongoing⟩ := inStep
    obtain ⟨effect, executed, rfl⟩ := map_eq_some_iff.mp advanced
    rw [jump.execute_jump bracketed.isJump] at executed
    obtain ⟨args, defined, rfl⟩ := map_eq_some_iff.mp executed
    have resolvedJump : (walk.facts.resolveOperation jump).opcode = .jump := bracketed.isJump
    refine .inl ⟨args, rfl, ?_⟩
    rw [ongoing.runs, bind_some, Progress.advance, Operation.execute_jump resolvedJump]
    change ((reached.values (jump.args.map walk.facts.resolve)).map _).map _ = _
    rw [ongoing.follows.values_resolve defined]
    rfl
  | left failed original =>
    cases advanced
    obtain ⟨position, frames, departed⟩ := inStep
    obtain ⟨origin, notLater, same, emitted, snapshot⟩ := departed.origin
    refine .inr ⟨failed, original, position, frames, origin, rfl, ?_, notLater, same, emitted,
      snapshot⟩
    rw [runFrom_of_take_left departed.leaves]
    rfl
  | jumped args => exact inStep.elim

end

end LinearTrace
