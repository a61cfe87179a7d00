import LinearTrace.Proofs.Lowering.Turn

/-!
# The stages of the vectorizer

What a run of the vectorizer does, stage by stage: guards are relaxed, the loop is unrolled, its
graph is built, relaxed guards are moved, packs are found and combined, a schedule is emitted, and
index guards may be collapsed.
-/

namespace LinearTrace

open DependencyGraph Ensures EnsuresValue

/-- The machine and the size of the narrowest array item, by which packs are lowered. -/
def Vectorizer.machine (state : Vectorizer) : Target × Nat :=
  (state.target, state.smallest)

/-- What the stages of a run work out on the way. -/
structure Stages where
  /-- The loop with relaxed guards. -/
  relaxed : List Operation
  /-- The number of further iterations. -/
  count : Nat
  /-- The graph of the unrolled loop. -/
  plain : DependencyGraph
  /-- The packs before they are combined. -/
  packs : PackSet
  /-- The packs afterwards, with their graph. -/
  packing : Packing
  /-- The state in which lowering starts. -/
  start : Lowering
  /-- The state in which it ends. -/
  lowering : Lowering

namespace Stages

/-- The loop with further iterations, and the boxes that are left. -/
def unrolled (stages : Stages) (supply : BoxSupply) : List Operation × BoxSupply :=
  Unrolling.unroll stages.relaxed stages.count supply

def moved (stages : Stages) : DependencyGraph :=
  stages.plain.pullUpRelaxedGuards.2

/-- The stages lead from one state of the vectorizer to another. -/
structure Leads (stages : Stages) (state after : Vectorizer) : Prop where
  isLoop : Trace.isLoopBody state.ops = true
  measures : Vectorizer.smallestItem state.ops ≠ 0
  relaxes : stages.relaxed = state.ops ∨ ∃ graph relaxation, ofOperations state.ops = .ok graph ∧
    Relaxation.ofGraph? graph state.config.maxPaths = some relaxation ∧
    Vectorizer.scheduledOperations relaxation.graph = .ok stages.relaxed
  builds : ofOperations (stages.unrolled state.supply).1 = .ok stages.plain
  moves : stages.plain.pullUpRelaxedGuards.1 = true
  finds : Packing.Found (fun _ => True) stages.moved ⟨stages.moved, stages.packs⟩
  combines : Packing.combine ⟨stages.moved, stages.packs⟩ = .ok () stages.packing
  starts : stages.start.IsEmpty ∧ stages.start.supply = (stages.unrolled state.supply).2
  machine : stages.start.target = state.target ∧
    stages.start.registerSize = state.target.registerSize ∧
    stages.start.smallest = Vectorizer.smallestItem state.ops
  emits : Vectorizer.emitSchedule stages.packing.graph stages.packing.packs.packs stages.start =
    .ok () stages.lowering
  ends : after.ops = stages.lowering.output.toList ∨ ∃ dropped,
    GuardCollapse.collapse stages.lowering.output.toList = .ok (after.ops, dropped)

end Stages

namespace Vectorizer

variable {state : Vectorizer} {graph : DependencyGraph}

/-! ## Single stages -/

theorem ensures_prepare (state : Vectorizer) :
    Ensures True prepare state fun _ after => Trace.isLoopBody state.ops = true ∧
      after.ops = state.ops ∧ after.config = state.config ∧ after.supply = state.supply ∧
      after.packs = state.packs ∧ after.machine = (state.target, smallestItem state.ops) ∧
      smallestItem state.ops ≠ 0 := by
  refine .bind_get (or_reject fun _ => or_reject fun isLoop => ?_)
  have found : Ensures True findSmallest state fun _ after => after.ops = state.ops ∧
      after.config = state.config ∧ after.supply = state.supply ∧ after.packs = state.packs ∧
      after.machine = (state.target, smallestItem state.ops) :=
    ⟨rfl, rfl, rfl, rfl, rfl⟩
  refine found.bind fun _ after same =>
    reject_or fun _ => bind_get (reject_or fun measures => ?_)
  have measured : smallestItem state.ops ≠ 0 := fun none =>
    measures ((congrArg Prod.snd same.2.2.2.2).trans none)
  have counted : Ensures True (modify fun state => { state with
      unrollCount := state.unrollCountFor state.target.registerSize }) after fun _ after =>
        after.ops = state.ops ∧ after.config = state.config ∧ after.supply = state.supply ∧
          after.packs = state.packs ∧ after.machine = (state.target, smallestItem state.ops) := same
  refine counted.bind fun _ after same => bind_get ?_
  dsimp only
  split
  · exact trivial
  · obtain ⟨sameOps, sameConfig, sameSupply, samePacks, isMachine⟩ := same
    exact ⟨isLoop, sameOps, sameConfig, sameSupply, samePacks, isMachine, measured⟩

theorem ensures_relaxGuards (state : Vectorizer) : Ensures True relaxGuards state fun _ after =>
      (after.ops = state.ops ∨ ∃ graph relaxation, ofOperations state.ops = .ok graph ∧
        Relaxation.ofGraph? graph state.config.maxPaths = some relaxation ∧
        scheduledOperations relaxation.graph = .ok after.ops) ∧
      after.supply = state.supply ∧ after.packs = state.packs ∧
      after.machine = state.machine := by
  refine .bind_get (bind_lift (of_ok fun graph built => ?_))
  split
  · exact ⟨.inl rfl, rfl, rfl, rfl⟩
  next relaxation isRelaxation =>
    refine .bind_lift (of_ok fun ops scheduled => ?_)
    exact ⟨.inr ⟨graph, relaxation, built, isRelaxation, scheduled⟩, rfl, rfl, rfl⟩

theorem ensures_buildGraph (state : Vectorizer) :
    Ensures True buildGraph state fun _ after => ∃ graph, ofOperations state.ops = .ok graph ∧
      after.graph = some graph ∧ after.supply = state.supply ∧ after.packs = state.packs ∧
      after.machine = state.machine := by
  refine .bind_get (bind_lift (of_ok fun graph built => ?_))
  exact ⟨graph, built, rfl, rfl, rfl, rfl⟩

/-- The packs of the state were found in its graph. -/
structure HasPacks (graph : DependencyGraph) (supply : BoxSupply) (machine : Target × Nat)
    (state : Vectorizer) : Prop where
  isGraph : state.graph = some graph
  isSupply : state.supply = supply
  isMachine : state.machine = machine
  found : Packing.Found (fun _ => True) graph ⟨graph, state.packs⟩

variable {supply : BoxSupply} {machine : Target × Nat}

theorem ensures_pullUpGuards (isGraph : state.graph = some graph) (noPacks : state.packs = {}) :
    Ensures True pullUpGuards state fun _ after => graph.pullUpRelaxedGuards.1 = true ∧
      HasPacks graph.pullUpRelaxedGuards.2 state.supply state.machine after := by
  refine .bind_get ?_
  rw [isGraph]
  change Ensures True (if graph.pullUpRelaxedGuards.1 = true then pure ()
    else Work.reject .impureGuard) { state with graph := some graph.pullUpRelaxedGuards.2 } _
  split
  next moves => exact ⟨moves, rfl, rfl, rfl, noPacks ▸ .start⟩
  · exact trivial

section

variable (hasPacks : HasPacks graph supply machine state)

include hasPacks

theorem HasPacks.ensures_seedPacks :
    Ensures True seedPacks state fun _ after => HasPacks graph supply machine after := by
  refine .bind_get ?_
  rw [hasPacks.isGraph]
  exact ⟨rfl, hasPacks.isSupply, hasPacks.isMachine, hasPacks.found.seed _ trivial⟩

theorem HasPacks.ensures_growPacks :
    Ensures True growPacks state fun _ after => HasPacks graph supply machine after := by
  refine .bind_get ?_
  rw [hasPacks.isGraph]
  refine .bind_lift (of_ok fun packs grown => ?_)
  unfold PackSet.growChecked at grown
  split at grown
  · cases grown
  · cases grown
    exact ⟨rfl, hasPacks.isSupply, hasPacks.isMachine, hasPacks.found.grow _ trivial⟩

theorem HasPacks.ensures_combinePacks :
    Ensures True combinePacks state fun _ after => ∃ packing : Packing,
      Packing.combine ⟨graph, state.packs⟩ = .ok () packing ∧ after.graph = some packing.graph ∧
        after.packs = packing.packs ∧ after.supply = supply ∧ after.machine = machine := by
  refine .bind_get ?_
  rw [hasPacks.isGraph]
  dsimp only
  split
  next packing combined =>
    exact ⟨packing, combined, rfl, rfl, hasPacks.isSupply, hasPacks.isMachine⟩
  next fault packing _ => cases fault <;> exact trivial

end

theorem ensures_scheduleVectors (isGraph : state.graph = some graph) :
    Ensures True scheduleVectors state fun _ after => ∃ start lowering : Lowering, start.IsEmpty ∧
      start.supply = state.supply ∧ start.registerSize = start.target.registerSize ∧
      (start.target, start.smallest) = state.machine ∧
      emitSchedule graph state.packs.packs start = .ok () lowering ∧
      after.ops = lowering.output.toList := by
  refine .bind_get ?_
  rw [isGraph]
  dsimp only
  split
  next fault lowering _ => cases fault <;> exact trivial
  next lowering emitted => exact ⟨_, lowering, ⟨rfl, rfl, rfl⟩, rfl, rfl, rfl, emitted, rfl⟩

theorem ensures_collapseGuards (state : Vectorizer) :
    Ensures True collapseGuards state fun _ after =>
      ∃ dropped, GuardCollapse.collapse state.ops = .ok (after.ops, dropped) := by
  refine .bind_get (bind_lift (of_ok fun result collapsed => ?_))
  exact ⟨result.2, collapsed⟩

/-! ## All stages -/

/-- A run that is not stopped goes through all stages. -/
theorem ensures_stages (noPacks : state.packs = {}) :
    Ensures True run state fun _ after => ∃ stages : Stages, stages.Leads state after := by
  refine (ensures_prepare state).bind fun _ prepared holds => ?_
  obtain ⟨isLoop, sameOps, sameConfig, sameSupply, samePacks, isMachine, measures⟩ := holds
  refine (ensures_relaxGuards prepared).bind fun _ relaxed holds => bind_get ?_
  rw [sameOps, sameConfig, sameSupply, samePacks, noPacks, isMachine] at holds
  obtain ⟨relaxes, relaxedSupply, noPacks, isMachine⟩ := holds
  have unrolls : Ensures True (unroll relaxed.unrollCount) relaxed fun _ after =>
      (after.ops, after.supply) = Unrolling.unroll relaxed.ops relaxed.unrollCount state.supply ∧
        after.packs = {} ∧ after.machine = (state.target, smallestItem state.ops) :=
    ⟨relaxedSupply ▸ rfl, noPacks, isMachine⟩
  refine unrolls.bind fun _ unrolled holds => ?_
  obtain ⟨isUnrolled, noPacks, isMachine⟩ := holds
  refine (ensures_buildGraph unrolled).bind fun _ planned holds => ?_
  obtain ⟨plain, built, isPlain, plainSupply, plainPacks, sameMachine⟩ := holds
  refine (ensures_pullUpGuards isPlain (plainPacks.trans noPacks)).bind fun _ _ holds => ?_
  obtain ⟨moves, hasPacks⟩ := holds
  refine hasPacks.ensures_seedPacks.bind fun _ _ hasPacks => ?_
  refine hasPacks.ensures_growPacks.bind fun _ packed hasPacks => ?_
  refine hasPacks.ensures_combinePacks.bind fun _ combined holds => ?_
  obtain ⟨packing, combines, isGraph, arePacks, combinedSupply, combinedMachine⟩ := holds
  refine (ensures_scheduleVectors isGraph).bind fun _ scheduled holds => bind_get ?_
  obtain ⟨start, lowering, empty, startSupply, isRegister, startMachine, emitted, isOutput⟩ := holds
  obtain ⟨unrolledOps, unrolledSupply⟩ := Prod.mk.inj isUnrolled
  rw [unrolledOps] at built
  rw [combinedSupply, plainSupply, unrolledSupply] at startSupply
  rw [combinedMachine, sameMachine, isMachine] at startMachine
  obtain ⟨isTarget, isSmallest⟩ := Prod.mk.inj startMachine
  rw [isTarget] at isRegister
  rw [arePacks] at emitted
  have leads : ∀ after : Vectorizer, (after.ops = lowering.output.toList ∨ ∃ dropped,
      GuardCollapse.collapse lowering.output.toList = .ok (after.ops, dropped)) →
      Stages.Leads ⟨relaxed.ops, relaxed.unrollCount, plain, packed.packs, packing, start,
        lowering⟩ state after := fun _ ends =>
    ⟨isLoop, measures, relaxes, built, moves, hasPacks.found, combines, ⟨empty, startSupply⟩,
      ⟨isTarget, isRegister, isSmallest⟩, emitted, ends⟩
  split
  · refine (ensures_collapseGuards scheduled).bind fun _ _ collapsed => ?_
    rw [isOutput] at collapsed
    exact ⟨_, leads _ (.inr collapsed)⟩
  · exact ⟨_, leads _ (.inl isOutput)⟩

end Vectorizer

end LinearTrace
