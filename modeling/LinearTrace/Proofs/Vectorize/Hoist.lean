import LinearTrace.Proofs.Vectorize.GuardOrder

/-!
# What relaxing guards hoists

The early exit waits for the guards that are relaxed, and nodes that have been raised are
pure and stand in front of a guard which may be relaxed.  So when an operation that is no
guard overtakes an earlier one, some guard behind it may be relaxed, and when it keeps the
lowest priority, such a guard has been relaxed and comes before the early exit.
-/

namespace LinearTrace

open List

open DependencyGraph

namespace Loosens

variable {earlyExit node late : Nat} {start graph : DependencyGraph}
  {order relaxed earlier later : List Nat}

/-- Effects still follow what they followed. -/
theorem mem_of_hasSideEffect (loosens : Loosens earlyExit start relaxed graph)
    (effect : (start.op late).opcode.hasSideEffect)
    (previous : node ∈ start.predecessors late) : node ∈ graph.predecessors late := by
  refine (loosens.kept node late previous).resolve_right ?_
  rintro (isRelaxed | ⟨_, isPure, _⟩)
  · exact Bool.false_ne_true ((Opcode.isGuard_of_hasSideEffect effect).symm.trans
      (loosens.may late isRelaxed).2.1)
  · exact Bool.false_ne_true ((Opcode.hasSideEffect_of_isPure isPure).symm.trans effect)

section

variable (loosens : Loosens earlyExit start relaxed graph) (isSchedule : graph.IsSchedule order)
  (split : order = earlier ++ late :: later)

include loosens isSchedule split

/-- A node of the lowest priority goes in front of the early exit only when the early exit waits for
a relaxed guard that is behind the node. -/
theorem exists_relaxed (lowest : (graph.node late).priority = 0) (unrelaxed : late ∉ relaxed)
    (behind : earlyExit < late) (exitLeft : earlyExit ∉ earlier) :
    ∃ guard ∈ relaxed, late < guard ∧ [late, guard, earlyExit].Sublist order := by
  have inside : late < graph.size := isSchedule.mem_iff.mp (by simp [split])
  have exitInside := Nat.lt_trans behind inside
  have isMember : earlyExit ∈ order := isSchedule.mem_iff.mpr exitInside
  by_cases ready : ∀ source ∈ graph.predecessors earlyExit, source ∈ earlier
  · have outranks := isSchedule.outranks earlier late later split earlyExit exitInside exitLeft ready
    have least := loosens.least earlyExit
    rw [Scheduler.Outranks, lowest] at outranks
    omega
  rw [not_forall] at ready
  obtain ⟨source, waits⟩ := ready
  rw [not_forall] at waits
  obtain ⟨previous, isWaiting⟩ := waits
  have edge : graph.hasEdge source earlyExit = true :=
    hasEdge_iff.mpr (loosens.mirrored.mem_iff.mpr previous)
  -- A source in front of the node would wait for the early exit itself.
  have notBefore : ¬ source < late := by
    intro before
    obtain ⟨_, _, path⟩ := loosens.exit_of_overtakes isSchedule split lowest before isWaiting
    have cycle : graph.Reaches earlyExit earlyExit := by
      rcases path with rfl | path
      · exact .single edge
      · exact .tail path edge
    exact isSchedule.not_reaches_self loosens.mirrored cycle
  obtain ⟨_, isRelaxed⟩ := (loosens.forward source earlyExit previous).resolve_left fun first =>
    notBefore (Nat.lt_trans first behind)
  have apart : source ≠ late := by
    rintro rfl
    exact unrelaxed isRelaxed
  refine ⟨source, isRelaxed, by omega, ?_⟩
  rw [split, mem_append, mem_cons] at isMember
  have isLater : earlyExit ∈ later :=
    (isMember.resolve_left exitLeft).resolve_left (Nat.ne_of_lt behind)
  obtain ⟨between, back, rfl⟩ := append_of_mem isLater
  have isBetween : source ∈ between := by
    have isSource := isSchedule.ordered (earlier ++ late :: between) earlyExit back
      (by rw [split, append_assoc, cons_append]) source previous
    rw [mem_append, mem_cons] at isSource
    exact (isSource.resolve_left isWaiting).resolve_left apart
  rw [split]
  refine List.Sublist.trans (List.Sublist.cons_cons late ?_) (sublist_append_right earlier _)
  exact (singleton_sublist.mpr isBetween).append (singleton_sublist.mpr mem_cons_self)

/-- Whatever is no guard overtakes something only when a guard behind it may be relaxed. -/
theorem exists_mayRelax (noGuard : (start.op late).isGuard = false) (before : node < late)
    (isLeft : node ∉ earlier) : ∃ guard, late < guard ∧ MayRelax start earlyExit guard := by
  rcases loosens.raised late with lowest | ⟨_, _, raised⟩
  · obtain ⟨behind, exitLeft, _⟩ := loosens.exit_of_overtakes isSchedule split lowest before isLeft
    have unrelaxed : late ∉ relaxed := fun isRelaxed =>
      Bool.false_ne_true (noGuard.symm.trans (loosens.may late isRelaxed).2.1)
    obtain ⟨guard, isRelaxed, isLater, _⟩ := loosens.exists_relaxed isSchedule split lowest
      unrelaxed (Nat.lt_of_le_of_lt behind before) exitLeft
    exact ⟨guard, isLater, (loosens.may guard isRelaxed).2⟩
  · exact raised

end

end Loosens

end LinearTrace
