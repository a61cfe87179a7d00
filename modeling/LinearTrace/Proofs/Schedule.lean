import Mathlib.Data.List.Nodup
import LinearTrace.Schedule
import LinearTrace.Proofs.Pack.Apart

/-!
# Schedules

The state of a schedule is known from the nodes that have been emitted: the nodes
left, and for each node the predecessors left.  A turn emits nodes that are ready,
so whatever the priorities are, a schedule emits no node twice and none before the
nodes it depends on.  When no group waits for itself, some group is always ready,
and the schedule gets to its end.
-/

namespace LinearTrace

open List PackSet Scheduler

variable {index source : Nat} {turn : Turn} {earlier : List Nat} {scheduler : Scheduler}

def Turn.nodes (packs : List Pack) : Turn → List Nat
  | .node position => [position]
  | .pack position => (packs[position]?.map Pack.members).getD []

theorem Turn.nodes_pack {packs : List Pack} {pack : Pack} (found : packs[index]? = some pack) :
    (Turn.pack index).nodes packs = pack.members := by
  rw [Turn.nodes, found]
  rfl

namespace Scheduler

variable {graph : DependencyGraph} {packs : List Pack} {done : List Nat} {position : Nat}

/-! ## The state -/

/-- The state once some nodes have been emitted. -/
def after (graph : DependencyGraph) (done : List Nat) : Scheduler where
  pending := (Array.range graph.size).map fun position =>
    (graph.predecessors position).countP fun source => !done.contains source
  emitted := (Array.range graph.size).map done.contains
  remaining := (range graph.size).countP fun position => !done.contains position

theorem start_eq_after (graph : DependencyGraph) : start graph [] = after graph [] := by
  have pending : (graph.nodes.map fun node => node.depends.length) =
      (Array.range graph.size).map fun position =>
        (graph.predecessors position).countP fun source => !([] : List Nat).contains source := by
    refine Array.ext_getElem? fun position => ?_
    by_cases inside : position < graph.size
    · rw [Array.getElem?_map, Array.getElem?_map, Array.getElem?_range, if_pos inside,
        Array.getElem?_eq_getElem inside]
      simp [DependencyGraph.predecessors, DependencyGraph.node, Array.getD_eq_getD_getElem?,
        Array.getElem?_eq_getElem inside]
    · rw [Array.getElem?_eq_none (by simpa [DependencyGraph.size] using inside),
        Array.getElem?_eq_none (by simpa using inside)]
  unfold start after
  rw [pending]

theorem getElem?_foldl_release (targets : List Nat) (pending : Array Nat) (position : Nat) :
    (targets.foldl release pending)[position]? =
      pending[position]?.map (· - targets.count position) := by
  induction targets generalizing pending with
  | nil => simp
  | cons target rest ih =>
    rw [foldl_cons, ih, release, Array.getElem?_modify, count_cons]
    by_cases same : target = position
    · subst same
      simp only [if_true, beq_self_eq_true, Option.map_map]
      congr 1
      funext count
      simp
      omega
    · simp [same]

theorem countP_append_singleton (fresh : position ∉ done) (nodes : List Nat) :
    nodes.countP (fun node => !(done ++ [position]).contains node) =
      nodes.countP (fun node => !done.contains node) - nodes.count position := by
  suffices both : nodes.countP (fun node => !(done ++ [position]).contains node) +
      nodes.count position = nodes.countP fun node => !done.contains node by omega
  induction nodes with
  | nil => rfl
  | cons node rest ih =>
    have isDone : (done ++ [position]).contains node = (done.contains node || node == position) := by
      rw [Bool.eq_iff_iff]
      simp
    rw [countP_cons, countP_cons, count_cons, isDone, ← ih]
    by_cases same : node = position
    · have notDone : done.contains node = false := by simpa [same] using fresh
      rw [notDone, beq_iff_eq.mpr same]
      simp only [Bool.false_or, Bool.not_true, Bool.not_false, if_true, Bool.false_eq_true,
        if_false]
      omega
    · rw [beq_eq_false_iff_ne.mpr same, Bool.or_false]
      simp only [Bool.false_eq_true, if_false]
      omega

theorem emit_after (mirrored : graph.IsMirrored) (inside : position < graph.size)
    (fresh : position ∉ done) :
    emit graph (after graph done) position = .ok (after graph (done ++ [position])) := by
  have isLeft : (after graph done).remaining ≠ 0 := by
    refine Nat.pos_iff_ne_zero.mp (countP_pos_iff.mpr ⟨position, mem_range.mpr inside, ?_⟩)
    simpa using fresh
  have pending : (graph.successors position).foldl release (after graph done).pending =
      (after graph (done ++ [position])).pending := by
    refine Array.ext_getElem? fun other => ?_
    rw [getElem?_foldl_release, mirrored.count_eq]
    simp only [after, Array.getElem?_map, Option.map_map, Array.getElem?_range]
    by_cases isOther : other < graph.size
    · simp only [if_pos isOther, Option.map_some, countP_append_singleton fresh]
      rfl
    · simp [isOther]
  have emitted : (after graph done).emitted.setIfInBounds position true =
      (after graph (done ++ [position])).emitted := by
    refine Array.ext_getElem? fun other => ?_
    rw [Array.getElem?_setIfInBounds]
    simp only [after, Array.getElem?_map, Array.getElem?_range, Array.size_map, Array.size_range]
    by_cases same : position = other
    · subst same
      simp [inside]
    · by_cases isOther : other < graph.size
      · simp [same, isOther, Ne.symm same]
      · simp [same, isOther]
  have remaining : (after graph done).remaining - 1 =
      (after graph (done ++ [position])).remaining := by
    have once : (range graph.size).count position = 1 :=
      count_eq_one_of_mem nodup_range (mem_range.mpr inside)
    simp only [after, countP_append_singleton fresh, once]
  unfold emit
  rw [if_neg isLeft, pending, emitted, remaining]

theorem foldlM_emit_after (mirrored : graph.IsMirrored) {nodes : List Nat}
    (inside : ∀ node ∈ nodes, node < graph.size) (fresh : ∀ node ∈ nodes, node ∉ done)
    (distinct : nodes.Nodup) :
    nodes.foldlM (emit graph) (after graph done) = .ok (after graph (done ++ nodes)) := by
  induction nodes generalizing done with
  | nil =>
    rw [append_nil]
    rfl
  | cons node rest ih =>
    obtain ⟨notLater, distinct⟩ := nodup_cons.mp distinct
    have further : rest.foldlM (emit graph) (after graph (done ++ [node])) =
        .ok (after graph (done ++ [node] ++ rest)) := by
      refine ih (fun other later => inside other (mem_cons_of_mem _ later))
        (fun other later isDone => ?_) distinct
      rcases mem_append.mp isDone with isDone | isNode
      · exact fresh other (mem_cons_of_mem _ later) isDone
      · rw [mem_singleton.mp isNode] at later
        exact notLater later
    rw [append_assoc] at further
    rw [foldlM_cons, emit_after mirrored (inside node mem_cons_self) (fresh node mem_cons_self)]
    exact further

theorem isReady_after_iff : (after graph done).isReady position = true ↔
    position < graph.size ∧ position ∉ done ∧
      ∀ source ∈ graph.predecessors position, source ∈ done := by
  unfold isReady after
  by_cases inside : position < graph.size
  · simp [inside, countP_eq_zero]
  · simp [inside]

/-! ## Choosing -/

/-- The one node goes before the other: its priority is higher, or it comes first. -/
def Outranks (graph : DependencyGraph) (first second : Nat) : Prop :=
  (graph.node second).priority < (graph.node first).priority ∨
    (graph.node second).priority = (graph.node first).priority ∧ first ≤ second

theorem exists_foldl_prefer {candidates : List Nat} {first : Nat}
    (ordered : (first :: candidates).Pairwise (· < ·)) :
    ∃ node ∈ first :: candidates, candidates.foldl (prefer graph) (some first) = some node ∧
      ∀ other ∈ first :: candidates, Outranks graph node other := by
  induction candidates generalizing first with
  | nil =>
    refine ⟨first, mem_cons_self, rfl, fun other member => ?_⟩
    rw [mem_singleton.mp member]
    exact .inr ⟨rfl, Nat.le_refl _⟩
  | cons next rest ih =>
    obtain ⟨above, ordered⟩ := pairwise_cons.mp ordered
    have before := above next mem_cons_self
    rw [foldl_cons, prefer]
    by_cases higher : (graph.node first).priority < (graph.node next).priority
    · obtain ⟨node, member, chosen, best⟩ := ih ordered
      rw [if_pos higher]
      refine ⟨node, mem_cons_of_mem _ member, chosen, fun other isOther => ?_⟩
      rcases mem_cons.mp isOther with rfl | later
      · have overNext := best next mem_cons_self
        unfold Outranks at overNext ⊢
        omega
      · exact best other later
    have kept : (first :: rest).Pairwise (· < ·) :=
      pairwise_cons.mpr ⟨fun other later => above other (mem_cons_of_mem _ later),
        (pairwise_cons.mp ordered).2⟩
    obtain ⟨node, member, chosen, best⟩ := ih kept
    have overFirst := best first mem_cons_self
    rw [if_neg higher]
    refine ⟨node, ?_, chosen, fun other isOther => ?_⟩
    · rcases mem_cons.mp member with rfl | later
      · exact mem_cons_self
      · exact mem_cons_of_mem _ (mem_cons_of_mem _ later)
    rcases mem_cons.mp isOther with rfl | isOther
    · exact overFirst
    rcases mem_cons.mp isOther with rfl | later
    · unfold Outranks at overFirst ⊢
      omega
    · exact best other (mem_cons_of_mem _ later)

theorem exists_choose {node : Nat} (inside : node < graph.size)
    (eligible : scheduler.isEligible graph packs node) :
    ∃ chosen, scheduler.choose graph packs = some chosen := by
  have ordered := (pairwise_lt_range (n := graph.size)).filter (scheduler.isEligible graph packs)
  have candidate : node ∈ (range graph.size).filter (scheduler.isEligible graph packs) :=
    mem_filter.mpr ⟨mem_range.mpr inside, eligible⟩
  unfold choose
  revert ordered candidate
  cases (range graph.size).filter (scheduler.isEligible graph packs) with
  | nil => exact fun _ candidate => nomatch candidate
  | cons first rest =>
    intro ordered _
    obtain ⟨best, _, isBest, _⟩ := exists_foldl_prefer ordered
    exact ⟨best, isBest⟩

theorem choose_eq_some {node : Nat} (chosen : scheduler.choose graph packs = some node) :
    node < graph.size ∧ scheduler.isEligible graph packs node ∧
      ∀ other < graph.size, scheduler.isEligible graph packs other → Outranks graph node other := by
  unfold choose at chosen
  have ordered := (pairwise_lt_range (n := graph.size)).filter (scheduler.isEligible graph packs)
  have candidate : ∀ other, other ∈ (range graph.size).filter (scheduler.isEligible graph packs) ↔
        other < graph.size ∧ scheduler.isEligible graph packs other = true := by
    intro other
    rw [mem_filter, mem_range]
  revert chosen ordered candidate
  cases (range graph.size).filter (scheduler.isEligible graph packs) with
  | nil => exact fun chosen => nomatch chosen
  | cons first rest =>
    intro chosen ordered candidate
    obtain ⟨best, member, isBest, outranks⟩ := exists_foldl_prefer ordered
    have same : some best = some node := isBest.symm.trans chosen
    cases same
    obtain ⟨inside, eligible⟩ := (candidate node).mp member
    exact ⟨inside, eligible, fun other isOther otherEligible =>
      outranks other ((candidate other).mpr ⟨isOther, otherEligible⟩)⟩

/-! ## Turns -/

/-- The turn emits nodes that are ready: a node without a pack, or a whole pack.  One of them goes
before everything else that may be emitted. -/
structure IsNext (graph : DependencyGraph) (packs : List Pack) (done : List Nat) (turn : Turn) :
    Prop where
  inside : ∀ node ∈ turn.nodes packs, node < graph.size
  fresh : ∀ node ∈ turn.nodes packs, node ∉ done
  distinct : (turn.nodes packs).Nodup
  ready : ∀ node ∈ turn.nodes packs, ∀ source ∈ graph.predecessors node, source ∈ done
  group : ∀ node ∈ turn.nodes packs, ∀ index, (graph.node node).pack = some index ↔
    turn = .pack index
  best : ∃ node ∈ turn.nodes packs, ∀ other < graph.size,
    (after graph done).isEligible graph packs other = true → Outranks graph node other

theorem not_isStray (recorded : PackSet.IsRecorded graph packs) (scheduler : Scheduler) :
    ¬ (range graph.size).any (scheduler.isStray graph packs) = true := by
  intro isStray
  obtain ⟨node, _, isStray⟩ := any_eq_true.mp isStray
  obtain ⟨index, isPack, beyond⟩ :=
    (Option.any_eq_true _ _).mp (Bool.and_eq_true_iff.mp isStray).2
  obtain ⟨pack, found, _⟩ := (recorded.pack_iff node index).mp isPack
  rw [getElem?_eq_none (of_decide_eq_true beyond)] at found
  cases found

section

variable {node : Nat} (chosen : (after graph done).choose graph packs = some node)

include chosen

theorem exists_next_of_node (mirrored : graph.IsMirrored)
    (recorded : PackSet.IsRecorded graph packs) (isPack : (graph.node node).pack = none) :
    ∃ turn, IsNext graph packs done turn ∧ (after graph done).next graph packs =
      .ok (turn, after graph (done ++ turn.nodes packs)) := by
  obtain ⟨inside, eligible, best⟩ := choose_eq_some chosen
  obtain ⟨_, fresh, ready⟩ := isReady_after_iff.mp (Bool.and_eq_true_iff.mp eligible).1
  have only : ∀ other ∈ (Turn.node node).nodes packs, other = node :=
    fun other member => mem_singleton.mp member
  refine ⟨.node node, ⟨fun other member => only other member ▸ inside,
    fun other member => only other member ▸ fresh, nodup_singleton node,
    fun other member => only other member ▸ ready, fun other member index => ?_,
    node, mem_cons_self, best⟩, ?_⟩
  · rw [only other member, isPack]
    simp
  unfold next
  rw [if_neg (not_isStray recorded _), chosen]
  dsimp only
  rw [isPack]
  rw [emit_after mirrored inside fresh]
  rfl

theorem exists_next_of_pack (mirrored : graph.IsMirrored)
    (recorded : PackSet.IsRecorded graph packs) (isPack : (graph.node node).pack = some index) :
    ∃ turn, IsNext graph packs done turn ∧ (after graph done).next graph packs =
      .ok (turn, after graph (done ++ turn.nodes packs)) := by
  obtain ⟨_, eligible, best⟩ := choose_eq_some chosen
  obtain ⟨pack, found, isMember⟩ := (recorded.pack_iff node index).mp isPack
  have isCompanions : companions graph packs node = pack.members := by
    unfold companions
    rw [isPack]
    dsimp only
    rw [found]
    rfl
  have allReady := List.all_eq_true.mp (Bool.and_eq_true_iff.mp eligible).2
  rw [isCompanions] at allReady
  have members : ∀ other ∈ pack.members, other < graph.size ∧ other ∉ done ∧
      ∀ source ∈ graph.predecessors other, source ∈ done :=
    fun other member => isReady_after_iff.mp (allReady other member)
  have distinct := recorded.distinct pack (mem_of_getElem? found)
  refine ⟨.pack index, ?_, ?_⟩
  · refine ⟨?_, ?_, ?_, ?_, ?_, ?_⟩ <;> rw [Turn.nodes_pack found]
    · exact fun other member => (members other member).1
    · exact fun other member => (members other member).2.1
    · exact distinct
    · exact fun other member => (members other member).2.2
    · intro other member further
      have isOwn := (recorded.pack_iff other index).mpr ⟨pack, found, member⟩
      rw [isOwn, Option.some.injEq, Turn.pack.injEq]
    · exact ⟨node, isMember, best⟩
  · unfold next
    rw [if_neg (not_isStray recorded _), chosen]
    dsimp only
    rw [isPack]
    rw [isCompanions, Turn.nodes_pack found, foldlM_emit_after mirrored
      (fun other member => (members other member).1)
      (fun other member => (members other member).2.1) distinct]
    rfl

end

theorem next_after (mirrored : graph.IsMirrored) (recorded : PackSet.IsRecorded graph packs)
    (done : List Nat) :
    (∃ turn, IsNext graph packs done turn ∧ (after graph done).next graph packs =
      .ok (turn, after graph (done ++ turn.nodes packs))) ∨
    (∀ node < graph.size, (after graph done).isEligible graph packs node = false) ∧
      (after graph done).next graph packs =
        .error (.abort (.schedulerStuck (after graph done).remaining)) := by
  cases chosen : (after graph done).choose graph packs with
  | none =>
    refine .inr ⟨fun node inside => ?_, ?_⟩
    · by_contra eligible
      obtain ⟨other, isOther⟩ := exists_choose inside (Bool.eq_true_of_not_eq_false eligible)
      cases chosen.symm.trans isOther
    · unfold next
      rw [if_neg (not_isStray recorded _), chosen]
      rfl
  | some node =>
    cases isPack : (graph.node node).pack with
    | none => exact .inl (exists_next_of_node chosen mirrored recorded isPack)
    | some index => exact .inl (exists_next_of_pack chosen mirrored recorded isPack)

/-- The turns can follow each other once some nodes have been emitted. -/
def InOrder (graph : DependencyGraph) (packs : List Pack) : List Nat → List Turn → Prop
  | _, [] => True
  | done, turn :: rest =>
    IsNext graph packs done turn ∧ InOrder graph packs (done ++ turn.nodes packs) rest

theorem mem_of_remaining_eq_zero (finished : (after graph done).remaining = 0) {node : Nat}
    (inside : node < graph.size) : node ∈ done := by
  have none := countP_eq_zero.mp finished node (mem_range.mpr inside)
  simpa using none

theorem IsNext.remaining_lt (isNext : IsNext graph packs done turn) :
    (after graph (done ++ turn.nodes packs)).remaining < (after graph done).remaining := by
  obtain ⟨node, member, _⟩ := isNext.best
  have inside := isNext.inside node member
  have fresh := isNext.fresh node member
  -- Already the first of the nodes makes a difference.
  have one : (after graph (done ++ [node])).remaining < (after graph done).remaining := by
    have positive : 0 < (after graph done).remaining :=
      countP_pos_iff.mpr ⟨node, mem_range.mpr inside, by simpa using fresh⟩
    have once : (range graph.size).count node = 1 :=
      count_eq_one_of_mem nodup_range (mem_range.mpr inside)
    have less : (after graph (done ++ [node])).remaining = (after graph done).remaining - 1 := by
      simp only [after, countP_append_singleton fresh, once]
    omega
  refine Nat.lt_of_le_of_lt (countP_mono_left fun other _ isLeft => ?_) one
  rw [Bool.not_eq_true', contains_eq_mem, decide_eq_false_iff_not, mem_append] at isLeft ⊢
  rintro (isDone | isNode)
  · exact isLeft (.inl isDone)
  · rw [mem_singleton.mp isNode] at isLeft
    exact isLeft (.inr member)

/-- The turns of a schedule are in order, and one that is not cut short emits everything. -/
theorem run_after (mirrored : graph.IsMirrored) (recorded : PackSet.IsRecorded graph packs)
    (fuel : Nat) (done : List Nat) :
    InOrder graph packs done ((run graph packs fuel (after graph done)).1.map Prod.fst) ∧
    ((run graph packs fuel (after graph done)).2 = none →
      (after graph done).remaining ≤ fuel → ∀ node < graph.size, node ∈ done ++
        ((run graph packs fuel (after graph done)).1.map Prod.fst).flatMap (Turn.nodes packs)) := by
  induction fuel generalizing done with
  | zero =>
    refine ⟨trivial, fun _ few node inside => ?_⟩
    exact mem_append_left _ (mem_of_remaining_eq_zero (Nat.le_zero.mp few) inside)
  | succ fuel ih =>
    by_cases finished : (after graph done).remaining = 0
    · rw [run, if_pos finished]
      exact ⟨trivial, fun _ _ node inside =>
        mem_append_left _ (mem_of_remaining_eq_zero finished inside)⟩
    rw [run, if_neg finished]
    rcases next_after mirrored recorded done with ⟨turn, isNext, taken⟩ | ⟨_, stuck⟩
    · rw [taken]
      obtain ⟨inOrder, complete⟩ := ih (done ++ turn.nodes packs)
      refine ⟨⟨isNext, inOrder⟩, fun isDone few node inside => ?_⟩
      have fewer := isNext.remaining_lt
      have emitted := complete isDone (by omega) node inside
      rw [append_assoc] at emitted
      exact emitted
    · rw [stuck]
      exact ⟨trivial, fun cut => nomatch cut⟩

/-! ## Whole schedules -/

section

variable {turns before later : List Turn}

theorem inOrder_append :
    InOrder graph packs done (before ++ later) ↔ InOrder graph packs done before ∧
      InOrder graph packs (done ++ before.flatMap (Turn.nodes packs)) later := by
  induction before generalizing done with
  | nil => simp [InOrder]
  | cons turn rest ih =>
    rw [cons_append, InOrder, InOrder, ih, flatMap_cons, append_assoc, and_assoc]

section

variable (inOrder : InOrder graph packs done turns)

include inOrder

theorem InOrder.inside : ∀ node ∈ turns.flatMap (Turn.nodes packs), node < graph.size := by
  induction turns generalizing done with
  | nil => exact fun _ member => nomatch member
  | cons turn rest ih =>
    intro node member
    rw [flatMap_cons] at member
    rcases mem_append.mp member with isFirst | isLater
    · exact inOrder.1.inside node isFirst
    · exact ih inOrder.2 node isLater

theorem InOrder.nodup (distinct : done.Nodup) :
    (done ++ turns.flatMap (Turn.nodes packs)).Nodup := by
  induction turns generalizing done with
  | nil => simpa using distinct
  | cons turn rest ih =>
    obtain ⟨isNext, inOrder⟩ := inOrder
    rw [flatMap_cons, ← append_assoc]
    refine ih inOrder (nodup_append'.mpr ⟨distinct, isNext.distinct, ?_⟩)
    exact fun node isDone isNode => isNext.fresh node isNode isDone

theorem InOrder.exists_isNext (taken : turn ∈ turns) :
    ∃ earlier, IsNext graph packs (done ++ earlier) turn := by
  obtain ⟨before, later, rfl⟩ := append_of_mem taken
  exact ⟨_, (inOrder_append.mp inOrder).2.1⟩

theorem InOrder.nodup_turns : turns.Nodup := by
  induction turns generalizing done with
  | nil => exact nodup_nil
  | cons turn rest ih =>
    refine nodup_cons.mpr ⟨fun again => ?_, ih inOrder.2⟩
    obtain ⟨earlier, isNext⟩ := inOrder.2.exists_isNext again
    obtain ⟨node, member, _⟩ := isNext.best
    exact isNext.fresh node member (mem_append_left _ (mem_append_right _ member))

end

theorem InOrder.ready (inOrder : InOrder graph packs done (before ++ turn :: later)) :
    ∀ node ∈ turn.nodes packs, ∀ source ∈ graph.predecessors node,
      source ∈ done ++ before.flatMap (Turn.nodes packs) :=
  (inOrder_append.mp inOrder).2.1.ready

theorem InOrder.group (inOrder : InOrder graph packs done turns) (taken : turn ∈ turns) :
    ∀ node ∈ turn.nodes packs, ∀ index,
      (graph.node node).pack = some index ↔ turn = .pack index := by
  obtain ⟨_, isNext⟩ := inOrder.exists_isNext taken
  exact isNext.group

end

theorem schedule_eq_run (graph : DependencyGraph) (packs : List Pack) : graph.schedule packs [] =
      run graph packs (after graph []).remaining (after graph []) := by
  unfold DependencyGraph.schedule
  rw [start_eq_after]

/-- A schedule that is not cut short emits every node once, in order. -/
theorem inOrder_of_schedule (mirrored : graph.IsMirrored)
    (recorded : PackSet.IsRecorded graph packs) {turns : List (Turn × Nat)}
    (scheduled : graph.schedule packs [] = (turns, none)) :
    InOrder graph packs [] (turns.map Prod.fst) ∧
      ((turns.map Prod.fst).flatMap (Turn.nodes packs)).Perm (range graph.size) := by
  have whole := run_after mirrored recorded (after graph []).remaining []
  rw [← schedule_eq_run, scheduled] at whole
  obtain ⟨inOrder, complete⟩ := whole
  refine ⟨inOrder, (perm_ext_iff_of_nodup (inOrder.nodup nodup_nil) nodup_range).mpr fun node => ?_⟩
  rw [mem_range]
  exact ⟨inOrder.inside node, complete rfl (Nat.le_refl _) node⟩

/-- When every node is emitted, every pack has its turn, and only one. -/
theorem InOrder.count_pack {turns : List Turn} (inOrder : InOrder graph packs [] turns)
    (recorded : PackSet.IsRecorded graph packs)
    (complete : ∀ node < graph.size, node ∈ turns.flatMap (Turn.nodes packs))
    (inside : index < packs.length) : turns.count (.pack index) = 1 := by
  have isMember : packs[index].first ∈ packs[index].members := mem_cons_self
  have isPack := (recorded.pack_iff _ index).mpr ⟨_, getElem?_eq_getElem inside, isMember⟩
  have isFirst := recorded.inside _ (getElem_mem inside) _ isMember
  obtain ⟨turn, taken, emits⟩ := mem_flatMap.mp (complete _ isFirst)
  rw [(inOrder.group taken _ emits index).mp isPack] at taken
  exact count_eq_one_of_mem inOrder.nodup_turns taken

/-- Every pack has been emitted as a whole or not at all. -/
def IsWhole (packs : List Pack) (done : List Nat) : Prop :=
  ∀ pack ∈ packs, (∀ member ∈ pack.members, member ∈ done) ∨ ∀ member ∈ pack.members, member ∉ done

theorem isWhole_nil (packs : List Pack) : IsWhole packs [] :=
  fun _ _ => .inr fun _ _ => not_mem_nil

theorem IsNext.isWhole (recorded : PackSet.IsRecorded graph packs)
    (isNext : IsNext graph packs done turn) (whole : IsWhole packs done) :
    IsWhole packs (done ++ turn.nodes packs) := by
  intro pack isPack
  obtain ⟨index, found⟩ := mem_iff_getElem?.mp isPack
  have ofPack : ∀ member ∈ pack.members, (graph.node member).pack = some index :=
    fun member isMember => (recorded.pack_iff member index).mpr ⟨pack, found, isMember⟩
  by_cases isTurn : turn = .pack index
  · subst isTurn
    rw [Turn.nodes_pack found]
    exact .inl fun member isMember => mem_append_right _ isMember
  · refine (whole pack isPack).imp (fun all member isMember =>
      mem_append_left _ (all member isMember)) fun none member isMember isDone => ?_
    rcases mem_append.mp isDone with isDone | isNode
    · exact none member isMember isDone
    · exact isTurn ((isNext.group member isNode index).mp (ofPack member isMember))

section

variable {set : PackSet} (mirrored : graph.IsMirrored)
  (recorded : PackSet.IsRecorded graph set.packs) (apart : set.Every (Pack.IsApart graph))
  (acyclic : ∀ number, ¬ Relation.TransGen (Precedes graph) number number)

include mirrored recorded apart

theorem group_ne_of_mem_successors {target : Nat} (next : target ∈ graph.successors source) :
    group graph source ≠ group graph target := by
  intro same
  have isSource := graph.lt_size_of_mem_successors next
  have isTarget := mirrored.target_lt next
  unfold group at same
  split at same
  next index isPack =>
    split at same
    next other isOther =>
      obtain rfl : index = other := by omega
      obtain ⟨pack, found, inPack⟩ := (recorded.pack_iff source index).mp isPack
      obtain ⟨_, again, alsoInPack⟩ := (recorded.pack_iff target index).mp isOther
      cases found.symm.trans again
      exact (apart pack (mem_of_getElem? found)).not_mem_successors mirrored inPack alsoInPack next
    · omega
  · split at same
    · omega
    · rw [same] at next
      exact mirrored.loopless target next

include acyclic

/-- As long as nodes are left, one may be emitted together with its pack. -/
theorem exists_isEligible (whole : IsWhole set.packs done) {left : Nat} (inside : left < graph.size)
    (fresh : left ∉ done) :
    ∃ node < graph.size, (after graph done).isEligible graph set.packs node := by
  obtain ⟨node, isNode, isLeft, first⟩ :=
    exists_first_group acyclic (fun node => node ∉ done) inside fresh
  -- Whatever the group of the node waits for has been emitted.
  have ready : ∀ member < graph.size, member ∉ done → group graph member = group graph node →
        (after graph done).isReady member = true := by
    intro member isMember memberLeft sameGroup
    refine isReady_after_iff.mpr ⟨isMember, memberLeft, fun source previous => ?_⟩
    by_contra sourceLeft
    have next := mirrored.mem_iff.mpr previous
    exact group_ne_of_mem_successors mirrored recorded apart next
      ((first source member sourceLeft next sameGroup).trans sameGroup.symm)
  refine ⟨node, isNode, Bool.and_eq_true_iff.mpr ⟨ready node isNode isLeft rfl, ?_⟩⟩
  rw [List.all_eq_true]
  intro member isCompanion
  unfold companions at isCompanion
  cases isPack : (graph.node node).pack with
  | none =>
    rw [isPack] at isCompanion
    cases isCompanion
  | some index =>
    obtain ⟨pack, found, inPack⟩ := (recorded.pack_iff node index).mp isPack
    rw [isPack] at isCompanion
    dsimp only at isCompanion
    rw [found] at isCompanion
    have isMember : member ∈ pack.members := isCompanion
    have isKnown := mem_of_getElem? found
    refine ready member (recorded.inside pack isKnown member isMember) ?_ ?_
    · rcases whole pack isKnown with all | none
      · exact absurd (all node inPack) isLeft
      · exact none member isMember
    · unfold group
      rw [isPack, (recorded.pack_iff member index).mpr ⟨pack, found, isMember⟩]

theorem run_after_eq_none (fuel : Nat) (whole : IsWhole set.packs done) :
    (run graph set.packs fuel (after graph done)).2 = none := by
  induction fuel generalizing done with
  | zero => rfl
  | succ fuel ih =>
    by_cases finished : (after graph done).remaining = 0
    · rw [run, if_pos finished]
    rw [run, if_neg finished]
    rcases next_after mirrored recorded done with ⟨turn, isNext, taken⟩ | ⟨none, _⟩
    · rw [taken]
      exact ih (isNext.isWhole recorded whole)
    obtain ⟨left, isLeft, fresh⟩ := countP_pos_iff.mp (Nat.pos_of_ne_zero finished)
    obtain ⟨node, isNode, eligible⟩ := exists_isEligible mirrored recorded apart acyclic
      whole (mem_range.mp isLeft) (by simpa using fresh)
    rw [none node isNode] at eligible
    cases eligible

theorem schedule_eq_none : (graph.schedule set.packs []).2 = none := by
  rw [schedule_eq_run]
  exact run_after_eq_none mirrored recorded apart acyclic _ (isWhole_nil set.packs)

end

end Scheduler

/-! ## Without packs -/

namespace DependencyGraph

variable {graph : DependencyGraph} {node : Nat} {done later order : List Nat} {turns : List Turn}

theorem isRecorded_nil (pack : ∀ node, (graph.node node).pack = none) :
    PackSet.IsRecorded graph [] := by
  refine ⟨fun node index => ?_, fun _ member => (nomatch member), fun _ member => (nomatch member)⟩
  rw [pack]
  simp

theorem eq_map_of_inOrder (inOrder : Scheduler.InOrder graph [] done turns) :
    turns = (turns.flatMap (Turn.nodes [])).map .node := by
  induction turns generalizing done with
  | nil => rfl
  | cons turn rest ih =>
    obtain ⟨isNext, inOrder⟩ := inOrder
    cases turn with
    | pack index =>
      obtain ⟨_, member, _⟩ := isNext.best
      cases member
    | node position => exact congrArg (Turn.node position :: ·) (ih inOrder)

/-- An order of all nodes in which each comes after those it waits for. -/
structure IsOrder (graph : DependencyGraph) (order : List Nat) : Prop where
  isPerm : order.Perm (range graph.size)
  ordered : ∀ earlier node later, order = earlier ++ node :: later →
    ∀ source ∈ graph.predecessors node, source ∈ earlier

namespace IsOrder

section

variable (isOrder : graph.IsOrder order)

include isOrder

theorem mem_iff : node ∈ order ↔ node < graph.size := by
  rw [isOrder.isPerm.mem_iff, mem_range]

theorem nodup : order.Nodup :=
  isOrder.isPerm.nodup_iff.mpr nodup_range

theorem mem_of_reaches (mirrored : graph.IsMirrored) (path : graph.Reaches source node)
    (split : order = earlier ++ node :: later) : source ∈ earlier := by
  induction path generalizing earlier later with
  | single edge =>
    exact isOrder.ordered earlier _ later split source (mirrored.mem_iff.mp (hasEdge_iff.mp edge))
  | tail _ edge ih =>
    have isEarlier :=
      isOrder.ordered earlier _ later split _ (mirrored.mem_iff.mp (hasEdge_iff.mp edge))
    obtain ⟨front, between, rfl⟩ := append_of_mem isEarlier
    rw [append_assoc] at split
    exact mem_append_left _ (ih split)

theorem sublist_of_reaches (mirrored : graph.IsMirrored)
    (path : graph.Reaches source node) : [source, node].Sublist order := by
  have inside : node < graph.size := by
    obtain ⟨_, _, edge⟩ := Relation.TransGen.tail'_iff.mp path
    exact mirrored.target_lt (hasEdge_iff.mp edge)
  obtain ⟨earlier, later, split⟩ := append_of_mem (isOrder.mem_iff.mpr inside)
  rw [split]
  exact (singleton_sublist.mpr (isOrder.mem_of_reaches mirrored path split)).append
    (List.Sublist.cons_cons node (nil_sublist later))

/-- An order of all nodes leaves no way from a node back to it. -/
theorem not_reaches_self (mirrored : graph.IsMirrored) : ¬ graph.Reaches node node := fun path =>
  nodup_iff_sublist.mp isOrder.nodup node (isOrder.sublist_of_reaches mirrored path)

end

end IsOrder

/-- An order in which of the nodes that are ready the first one of the highest priority goes
first. -/
structure IsSchedule (graph : DependencyGraph) (order : List Nat) : Prop
    extends IsOrder graph order where
  outranks : ∀ earlier node later, order = earlier ++ node :: later → ∀ other < graph.size,
    other ∉ earlier → (∀ source ∈ graph.predecessors other, source ∈ earlier) →
      Scheduler.Outranks graph node other

/-- The turns of a schedule without packs. -/
theorem exists_isSchedule (mirrored : graph.IsMirrored)
    (pack : ∀ node, (graph.node node).pack = none) {turns : List (Turn × Nat)}
    (scheduled : graph.schedule [] [] = (turns, none)) :
    ∃ order, turns.map Prod.fst = order.map .node ∧ graph.IsSchedule order := by
  obtain ⟨inOrder, isPerm⟩ := inOrder_of_schedule mirrored (isRecorded_nil pack) scheduled
  have isMap := eq_map_of_inOrder inOrder
  have isNext : ∀ earlier node later,
      (turns.map Prod.fst).flatMap (Turn.nodes []) = earlier ++ node :: later →
        Scheduler.IsNext graph [] earlier (.node node) := by
    intro earlier node later split
    rw [isMap, split, map_append, inOrder_append] at inOrder
    have emitted : (earlier.map Turn.node).flatMap (Turn.nodes []) = earlier := by
      simp [flatMap_map, Turn.nodes]
    have isNext := inOrder.2.1
    rwa [emitted] at isNext
  refine ⟨_, isMap, ⟨isPerm, fun earlier node later split =>
    (isNext earlier node later split).ready node mem_cons_self⟩,
    fun earlier node later split other inside isLeft ready => ?_⟩
  obtain ⟨best, isBest, outranks⟩ := (isNext earlier node later split).best
  rw [mem_singleton.mp isBest] at outranks
  refine outranks other inside ?_
  rw [Scheduler.isEligible, Scheduler.companions, pack other,
    Scheduler.isReady_after_iff.mpr ⟨inside, isLeft, ready⟩]
  rfl

/-- A graph without packs whose edges lead to nodes of a higher rank is scheduled to its end. -/
theorem exists_schedule_of_rank (mirrored : graph.IsMirrored)
    (pack : ∀ node, (graph.node node).pack = none) (rank : Nat → Nat)
    (rises : ∀ source target, source ∈ graph.predecessors target → rank source < rank target) :
    ∃ turns order, graph.schedule [] [] = (turns, none) ∧
      turns.map Prod.fst = order.map .node ∧ graph.IsSchedule order := by
  have isGroup : ∀ node, group graph node = node := by
    intro node
    unfold group
    rw [pack]
  have higher : ∀ first second, Relation.TransGen (Precedes graph) first second →
      rank first < rank second := by
    intro first second path
    have step : ∀ first second, Precedes graph first second → rank first < rank second := by
      rintro _ _ ⟨source, target, next, rfl, rfl, _⟩
      rw [isGroup, isGroup]
      exact rises source target (mirrored.mem_iff.mp next)
    induction path with
    | single edge => exact step _ _ edge
    | tail _ edge ih => exact ih.trans (step _ _ edge)
  have scheduled : graph.schedule [] [] = (_, none) :=
    Prod.ext rfl (schedule_eq_none mirrored (isRecorded_nil pack)
      (fun _ member => nomatch member) fun number cycle => Nat.lt_irrefl _ (higher _ _ cycle))
  obtain ⟨order, isOrder⟩ := exists_isSchedule mirrored pack scheduled
  exact ⟨_, order, scheduled, isOrder⟩

end DependencyGraph

end LinearTrace
