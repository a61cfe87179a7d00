import LinearTrace.Vectorize
import LinearTrace.Proofs.Dependency.Paths
import LinearTrace.Proofs.Dependency.Supply
import LinearTrace.Proofs.Schedule

/-!
# Relaxed guards keep the loop in scope

Relaxing a guard cuts edges that carry no data, lets the label feed what the early
exit fed, and gives the guard the snapshot of the early exit, which then waits for it.
Whatever is relaxed, all other edges lead forward, and nothing leads from the early
exit to a relaxed guard, so the graph can be scheduled.  No box is taken away from a
node that still reads it, so the operations in the order of the schedule are a loop
again, with the same label and the same closing operation.
-/

namespace LinearTrace

open List Relaxation Nat Vectorizer PathSearch

open DependencyGraph

variable {node input source target guard earlyExit maxPaths : Nat} {start graph : DependencyGraph}
  {relaxation : Relaxation}

/-! ## Looking at paths -/

/-- A guard that relaxing guards may try to relax. -/
def MayRelax (start : DependencyGraph) (earlyExit guard : Nat) : Prop :=
  (start.op guard).isGuard = true ∧ Relaxation.isCandidate start earlyExit guard = true

theorem MayRelax.apart (may : MayRelax start earlyExit guard) :
    guard ≠ earlyExit ∧ (start.op guard).opcode ≠ .guardEarlyExit := by
  obtain ⟨_, isCandidate⟩ := may
  simp only [Relaxation.isCandidate, Bool.and_eq_true, bne_iff_ne, Bool.not_eq_true'] at isCandidate
  refine ⟨isCandidate.1.1, fun isExit => ?_⟩
  rw [isExit] at isCandidate
  cases isCandidate.1.2

namespace GuardPaths

variable {state after : GuardPaths} {paths seen : List (List Nat)} {nodes : List Nat}

theorem mem_insertNew : input ∈ insertNew nodes node ↔ input ∈ nodes ∨ input = node := by
  unfold insertNew
  split
  next isOld =>
    refine ⟨.inl, fun either => either.elim id fun same => ?_⟩
    rw [same]
    exact contains_iff_mem.mp isOld
  · rw [mem_append, mem_singleton]

/-- Looking at paths of a guard raises pure nodes in front of it, and asks for edges without data to
be cut and for pure nodes, or the guard itself, to be pulled.  Every path that was seen gets a cut
at one of its ends. -/
structure Inspects (guard : Nat) (start : DependencyGraph) (seen : List (List Nat))
    (state : GuardPaths) : Prop where
  sameEdges : start.SameEdges state.graph
  op : ∀ node, state.graph.op node = start.op node
  pack : ∀ node, (state.graph.node node).pack = (start.node node).pack
  priority : ∀ node, (state.graph.node node).priority = (start.node node).priority ∨
    node < guard ∧ (start.op node).opcode.isPure = true ∧ (state.graph.node node).priority = 10
  cut : ∀ source ∈ state.cut, ⟨source, .data⟩ ∉ (start.node guard).depends
  pulled : ∀ node ∈ state.pulled,
    node = guard ∨ node < guard ∧ (start.op node).opcode.isPure = true
  covers : ∀ nodes ∈ seen,
    nodes.tail.headD guard ∈ state.cut ∨ nodes.dropLast.getLastD guard ∈ state.pulled

namespace Inspects

theorem prioritize (inspects : state.Inspects guard start seen) {positions : List Nat}
    (pure : ∀ node ∈ positions, node < guard ∧ (start.op node).opcode.isPure) :
    GuardPaths.Inspects guard start seen
      { state with graph := GuardPaths.prioritize state.graph positions } := by
  refine foldl_keeps (motive := fun graph =>
    GuardPaths.Inspects guard start seen { state with graph := graph }) inspects
    fun graph position member inspects => { inspects with
      sameEdges := inspects.sameEdges.trans (sameEdges_modifyNode graph position (fun _ => rfl)
        fun _ => rfl)
      op := fun node => ?_
      pack := fun node => ?_
      priority := fun node => ?_ }
  · refine (op_modifyNode graph position ?_ node).trans (inspects.op node)
    exact fun _ => rfl
  · rw [node_modifyNode]
    split <;> exact inspects.pack node
  rw [node_modifyNode]
  split
  next here =>
    obtain ⟨below, isPure⟩ := here.1 ▸ pure position member
    exact .inr ⟨below, isPure, rfl⟩
  · exact inspects.priority node

theorem inspect {verdict : Bool} (mirrored : start.IsMirrored)
    (inspects : state.Inspects guard start seen)
    (apart : guard ≠ earlyExit) {inputs : Nat → List Nat}
    (arePaths : ∀ nodes ∈ paths, nodes ∈ descents inputs earlyExit guard)
    (isInspected : GuardPaths.inspect guard paths state = (verdict, after)) :
    ∃ looked, after.Inspects guard start (seen ++ looked) ∧ (verdict = true → looked = paths) := by
  induction paths generalizing state seen with
  | nil =>
    cases isInspected
    exact ⟨[], by rwa [append_nil], fun _ => rfl⟩
  | cons nodes rest ih =>
    obtain ⟨isFirst, later⟩ := forall_mem_cons.mp arePaths
    obtain ⟨_, isPath, descends⟩ := mem_descents.mp isFirst
    obtain ⟨middle, rfl, below⟩ := descends.exists_middle apart
    have isInner : nodes.tail.dropLast = middle := by
      rw [isPath]
      exact dropLast_concat
    have isFront : nodes.dropLast = guard :: middle := by
      rw [isPath, ← cons_append]
      exact dropLast_concat
    -- What is asked for the first path is added to what has been asked for so far.
    have further : ∀ {next : GuardPaths}, next.Inspects guard start (seen ++ [nodes]) →
        GuardPaths.inspect guard rest next = (verdict, after) →
        ∃ looked, after.Inspects guard start (seen ++ looked) ∧
          (verdict = true → looked = nodes :: rest) := by
      intro next inspects isInspected
      obtain ⟨looked, inspects, whole⟩ := ih inspects later isInspected
      rw [append_assoc] at inspects
      exact ⟨nodes :: looked, inspects, fun isGood => congrArg _ (whole isGood)⟩
    rw [GuardPaths.inspect] at isInspected
    split at isInspected
    next noData =>
      refine further ?_ isInspected
      refine { inspects with cut := fun source member => ?_, covers := fun other member => ?_ }
      · rcases mem_insertNew.mp member with isOld | rfl
        · exact inspects.cut source isOld
        · intro edge
          rw [← inspects.sameEdges.depends] at edge
          exact noData ((mirrored.of_sameEdges inspects.sameEdges).kind_eq _ _ _ edge)
      · rcases mem_append.mp member with isSeen | isNew
        · exact (inspects.covers other isSeen).imp_left fun isCut => mem_insertNew.mpr (.inl isCut)
        · rw [mem_singleton.mp isNew]
          exact .inl (mem_insertNew.mpr (.inr rfl))
    · split at isInspected
      next pure =>
        rw [isInner] at pure isInspected
        have arePure : ∀ node ∈ middle, node < guard ∧ (start.op node).opcode.isPure = true :=
          fun node member => ⟨below node member,
            inspects.op node ▸ all_eq_true.mp pure node member⟩
        refine further ?_ isInspected
        refine { inspects.prioritize arePure with
          pulled := fun node member => ?_, covers := fun other member => ?_ }
        · rcases mem_insertNew.mp member with isOld | isNew
          · exact inspects.pulled node isOld
          · rw [isFront, getLastD_cons] at isNew
            have onPath : node ∈ guard :: middle := isNew ▸ getLastD_mem_cons
            exact (mem_cons.mp onPath).imp_right (arePure node)
        · rcases mem_append.mp member with isSeen | isNew
          · exact (inspects.covers other isSeen).imp_right fun isPulled =>
              mem_insertNew.mpr (.inl isPulled)
          · rw [mem_singleton.mp isNew]
            exact .inr (mem_insertNew.mpr (.inr rfl))
      · cases isInspected
        exact ⟨[], by rwa [append_nil], fun isGood => nomatch isGood⟩

end Inspects

/-! ## Moving edges -/

/-- The graph without the edges that are to be cut. -/
def untied (state : GuardPaths) (guard : Nat) : DependencyGraph :=
  state.cut.foldl (fun graph node => graph.unlink node guard) state.graph

/-- The graph in which pulled nodes are fed by the label, too. -/
def rerooted (state : GuardPaths) (earlyExit guard : Nat) : DependencyGraph :=
  state.pulled.foldl (fun graph node => graph.reroot 0 earlyExit node) (state.untied guard)

/-- The graph in which the edges are as the paths ask for, and the guard is still to be relaxed. -/
def moved (state : GuardPaths) (earlyExit guard : Nat) : DependencyGraph :=
  (state.rerooted earlyExit guard).link guard earlyExit .pullUp

theorem relax_eq (state : GuardPaths) (earlyExit guard : Nat) :
    state.relax 0 earlyExit guard = (state.moved earlyExit guard).relaxGuard guard earlyExit := rfl

theorem rewires_untied (state : GuardPaths) (guard : Nat) :
    state.graph.Rewires (state.untied guard) :=
  foldl_keeps ⟨rfl, fun _ => ⟨_, _, rfl⟩⟩ fun graph node _ rewires =>
    rewires.trans (graph.rewires_unlink node guard)

theorem rewires_rerooted (state : GuardPaths) (earlyExit guard : Nat) :
    state.graph.Rewires (state.rerooted earlyExit guard) :=
  foldl_keeps (state.rewires_untied guard) fun graph node _ rewires =>
    rewires.trans (graph.rewires_reroot 0 earlyExit node)

theorem rewires_moved (state : GuardPaths) (earlyExit guard : Nat) :
    state.graph.Rewires (state.moved earlyExit guard) :=
  (state.rewires_rerooted earlyExit guard).trans (rewires_link _ _ _ .pullUp)

theorem mem_depends_moved {edge : Edge} (member : edge ∈ (state.graph.node target).depends)
    (uncut : target = guard → edge.node ∉ state.cut)
    (unpulled : target ∈ state.pulled → edge.node ≠ earlyExit) :
    edge ∈ ((state.moved earlyExit guard).node target).depends := by
  have untied : edge ∈ ((state.untied guard).node target).depends := by
    refine foldl_keeps (motive := fun after => edge ∈ (after.node target).depends) member
      fun after node isCut kept => mem_depends_unlink.mpr ⟨kept, fun isTarget same => ?_⟩
    exact uncut isTarget (same ▸ isCut)
  refine mem_depends_link (foldl_keeps (motive := fun after =>
    edge ∈ (after.node target).depends) untied fun after node isPulled kept => ?_)
  exact mem_depends_link (mem_depends_unlink.mpr ⟨kept, fun same => unpulled (same ▸ isPulled)⟩)

theorem of_mem_predecessors_cut (previous : source ∈
      (nodes.foldl (fun graph node => graph.unlink node guard) graph).predecessors target) :
    source ∈ graph.predecessors target ∧ (target = guard → source ∉ nodes) := by
  induction nodes generalizing graph with
  | nil => exact ⟨previous, fun _ => not_mem_nil⟩
  | cons node rest ih =>
    obtain ⟨isLater, uncut⟩ := ih previous
    obtain ⟨isOld, apart⟩ := mem_predecessors_unlink.mp isLater
    exact ⟨isOld, fun same => not_mem_cons_of_ne_of_not_mem (apart same) (uncut same)⟩

theorem of_mem_predecessors_pulled (previous : source ∈
      (nodes.foldl (fun graph node => graph.reroot 0 earlyExit node) graph).predecessors target) :
    source = 0 ∧ target ∈ nodes ∨
      source ∈ graph.predecessors target ∧ (target ∈ nodes → source ≠ earlyExit) := by
  induction nodes generalizing graph with
  | nil => exact .inr ⟨previous, nofun⟩
  | cons node rest ih =>
    rcases ih previous with ⟨isFirst, isPulled⟩ | ⟨isLater, unpulled⟩
    · exact .inl ⟨isFirst, mem_cons_of_mem _ isPulled⟩
    · rcases mem_predecessors_reroot isLater with ⟨isFirst, rfl⟩ | ⟨isOld, apart⟩
      · exact .inl ⟨isFirst, mem_cons_self⟩
      · exact .inr ⟨isOld, fun member => (mem_cons.mp member).elim apart unpulled⟩

theorem of_mem_predecessors_moved
    (previous : source ∈ (state.moved earlyExit guard).predecessors target) :
    source = 0 ∧ target ∈ state.pulled ∨ source = guard ∧ target = earlyExit ∨
      source ∈ state.graph.predecessors target ∧ (target = guard → source ∉ state.cut) ∧
        (target ∈ state.pulled → source ≠ earlyExit) := by
  rcases of_mem_predecessors_link previous with isOld | isNew
  · rcases of_mem_predecessors_pulled isOld with isFirst | ⟨isOld, unpulled⟩
    · exact .inl isFirst
    · obtain ⟨isOld, uncut⟩ := of_mem_predecessors_cut isOld
      exact .inr (.inr ⟨isOld, uncut, unpulled⟩)
  · exact .inr (.inl isNew)

section

variable (mirrored : state.graph.IsMirrored)
  (arePulled : ∀ node ∈ state.pulled, 0 < node ∧ node < state.graph.size)

include mirrored arePulled

theorem isMirrored_rerooted : (state.rerooted earlyExit guard).IsMirrored := by
  have untied : (state.untied guard).IsMirrored :=
    foldl_keeps mirrored fun graph node _ mirrored => mirrored.unlink node guard
  refine (foldl_keeps (motive := fun after => after.IsMirrored ∧ after.size = state.graph.size)
    ⟨untied, (state.rewires_untied guard).size⟩ fun graph node member both =>
      ⟨both.1.reroot earlyExit ?_, (size_reroot _ _ _ _).trans both.2⟩).1
  rw [both.2]
  exact (arePulled node member).2

theorem zero_mem_rerooted (notFirst : 0 < earlyExit) (isPulled : node ∈ state.pulled) :
    0 ∈ (state.rerooted earlyExit guard).predecessors node := by
  refine (isMirrored_rerooted mirrored arePulled).mem_iff.mp ?_
  refine foldl_makes (fun graph => graph.size = state.graph.size)
    (fun graph => node ∈ graph.successors 0) isPulled (state.rewires_untied guard).size
    (fun graph other _ isSize => (size_reroot _ _ _ _).trans isSize) (fun graph isSize => ?_)
    fun graph other next => mem_successors_reroot next (Nat.ne_of_lt notFirst)
  obtain ⟨later, inside⟩ := arePulled node isPulled
  refine hasEdge_iff.mp (hasEdge_link.mpr (.inr ⟨rfl, rfl, Nat.ne_of_lt later, ?_⟩))
  rw [size_unlink, isSize]
  exact Nat.zero_lt_of_lt inside

end

end GuardPaths

/-! ## What relaxing guards keeps -/

namespace DependencyGraph

theorem op_relaxGuard (graph : DependencyGraph) (guard earlyExit node : Nat) :
    (graph.relaxGuard guard earlyExit).op node = if guard = node ∧ node < graph.size then
        { graph.op node with
          descriptor := some (.guard .atLoopHeader), snapshot := (graph.op earlyExit).snapshot }
      else graph.op node := by
  unfold relaxGuard op
  rw [node_modifyNode]
  split <;> rfl

theorem sameEdges_relaxGuard (graph : DependencyGraph) (guard earlyExit : Nat) :
    graph.SameEdges (graph.relaxGuard guard earlyExit) :=
  sameEdges_modifyNode graph guard (fun _ => rfl) fun _ => rfl

theorem fields_relaxGuard (graph : DependencyGraph) (guard earlyExit node : Nat) :
    ((graph.relaxGuard guard earlyExit).node node).priority = (graph.node node).priority ∧
      ((graph.relaxGuard guard earlyExit).node node).pack = (graph.node node).pack := by
  unfold relaxGuard
  rw [node_modifyNode]
  split <;> exact ⟨rfl, rfl⟩

end DependencyGraph

/-- Compared with the graph at the start, some guards resume like the early exit, which waits for
them and leads to none of them.  All other edges lead forward.  What led to a node still does, unless
it is relaxed, or is pure and fed by the label in place of the early exit; and edges of data stay
even then.  The nodes that have been raised are pure and in front of a guard that may be relaxed. -/
structure Loosens (earlyExit : Nat) (start : DependencyGraph) (relaxed : List Nat)
    (graph : DependencyGraph) : Prop where
  mirrored : graph.IsMirrored
  size : graph.size = start.size
  pack : ∀ node, (graph.node node).pack = none
  op : ∀ node, node ∉ relaxed → graph.op node = start.op node
  may : ∀ node ∈ relaxed, node < start.size ∧ MayRelax start earlyExit node
  resumes : ∀ node ∈ relaxed, graph.op node =
    { start.op node with
      descriptor := some (.guard .atLoopHeader), snapshot := (start.op earlyExit).snapshot }
  waits : ∀ node ∈ relaxed, node ∈ graph.predecessors earlyExit
  apart : ∀ node ∈ relaxed, ∀ rest, ¬ PathSearch.Descends graph.predecessors earlyExit node rest
  forward : ∀ source target, source ∈ graph.predecessors target →
    source < target ∨ target = earlyExit ∧ source ∈ relaxed
  kept : ∀ source target, source ∈ start.predecessors target →
    source ∈ graph.predecessors target ∨ target ∈ relaxed ∨ source = earlyExit ∧
      (start.op target).opcode.isPure = true ∧ 0 ∈ graph.predecessors target
  data : ∀ source target, source ≠ earlyExit → ⟨source, .data⟩ ∈ (start.node target).depends →
    ⟨source, .data⟩ ∈ (graph.node target).depends
  raised : ∀ node, (graph.node node).priority = 0 ∨ 0 ≤ (graph.node node).priority ∧
    (start.op node).opcode.isPure = true ∧ ∃ guard, node < guard ∧ MayRelax start earlyExit guard

namespace Loosens

variable {relaxed : List Nat} {state : GuardPaths} {seen : List (List Nat)}

theorem refl {ops : List Operation} (built : ofOperations ops = .ok graph) (earlyExit : Nat) :
    Loosens earlyExit graph [] graph where
  mirrored := isMirrored_of_ofOperations built
  size := rfl
  pack := (isFresh_of_ofOperations built).pack
  op _ _ := rfl
  may _ member := absurd member not_mem_nil
  resumes _ member := absurd member not_mem_nil
  waits _ member := absurd member not_mem_nil
  apart _ member := absurd member not_mem_nil
  forward _ _ previous := .inl (lt_of_mem_predecessors built previous)
  kept _ _ := .inl
  data _ _ _ := id
  raised node := .inl ((isFresh_of_ofOperations built).priority node)

section

variable (loosens : Loosens earlyExit start relaxed graph)

include loosens

/-- The paths from the early exit to a guard that may be relaxed are its descents. -/
theorem paths_eq (may : MayRelax start earlyExit guard) {paths : List (List Nat)}
    (isPaths : graph.paths guard earlyExit maxPaths = some paths) :
    paths = descents graph.predecessors earlyExit guard := by
  have falls : ∀ node ≠ earlyExit, ∀ input ∈ graph.predecessors node, input < node :=
    fun node notExit input previous =>
      (loosens.forward input node previous).resolve_right fun back => notExit back.1
  rw [(DependencyGraph.paths_eq falls (falls guard may.apart.1) isPaths).1, if_neg may.apart.1]

theorem opcode (node : Nat) : (graph.op node).opcode = (start.op node).opcode := by
  by_cases isRelaxed : node ∈ relaxed
  · rw [loosens.resumes node isRelaxed]
  · rw [loosens.op node isRelaxed]

theorem args_result (node : Nat) : (graph.op node).args = (start.op node).args ∧
      (graph.op node).result = (start.op node).result := by
  by_cases isRelaxed : node ∈ relaxed
  · rw [loosens.resumes node isRelaxed]
    exact ⟨rfl, rfl⟩
  · rw [loosens.op node isRelaxed]
    exact ⟨rfl, rfl⟩

theorem isGuard (node : Nat) : (graph.op node).isGuard = (start.op node).isGuard :=
  congrArg Opcode.isGuard (loosens.opcode node)

theorem not_mem_of_isPure (isPure : (start.op node).opcode.isPure) :
    node ∉ relaxed := fun isRelaxed =>
  Bool.false_ne_true ((Opcode.isGuard_of_isPure isPure).symm.trans (loosens.may node isRelaxed).2.1)

theorem mayRelax (isGuard : (start.op guard).isGuard)
    (isCandidate : Relaxation.isCandidate graph earlyExit guard) :
    MayRelax start earlyExit guard := by
  by_cases isRelaxed : guard ∈ relaxed
  · exact (loosens.may guard isRelaxed).2
  · refine ⟨isGuard, ?_⟩
    unfold Relaxation.isCandidate at isCandidate ⊢
    rwa [← loosens.op guard isRelaxed]

theorem inspected (inspects : state.Inspects guard graph seen)
    (may : MayRelax start earlyExit guard) : Loosens earlyExit start relaxed state.graph := by
  have same := inspects.sameEdges
  have sameEdges : state.graph.predecessors = graph.predecessors := funext same.predecessors
  exact
    { mirrored := loosens.mirrored.of_sameEdges same
      size := same.size.trans loosens.size
      pack := fun node => (inspects.pack node).trans (loosens.pack node)
      op := fun node plain => (inspects.op node).trans (loosens.op node plain)
      may := loosens.may
      resumes := fun node isRelaxed => (inspects.op node).trans (loosens.resumes node isRelaxed)
      waits := sameEdges ▸ loosens.waits
      apart := sameEdges ▸ loosens.apart
      forward := sameEdges ▸ loosens.forward
      kept := sameEdges ▸ loosens.kept
      data := fun source target apart edge =>
        same.depends target ▸ loosens.data source target apart edge
      raised := fun node => by
        rcases inspects.priority node with same | ⟨below, isPure, high⟩
        · exact same ▸ loosens.raised node
        · rw [high]
          exact .inr ⟨by decide, loosens.opcode node ▸ isPure, guard, below, may⟩ }

end

section

variable {paths : List (List Nat)} (loosens : Loosens earlyExit start relaxed graph)
  (inspects : state.Inspects guard graph paths) (isLabel : (start.op 0).opcode = .label)
  (notFirst : 0 < earlyExit) (inside : earlyExit < start.size) (isNode : guard < start.size)
  (may : MayRelax start earlyExit guard)

include loosens inspects isLabel isNode may

theorem pulled_inside : ∀ node ∈ state.pulled, 0 < node ∧ node < state.graph.size := by
  intro node member
  rw [inspects.sameEdges.size, loosens.size]
  rcases inspects.pulled node member with rfl | ⟨below, isPure⟩
  · refine ⟨pos_of_ne_zero ?_, isNode⟩
    rintro rfl
    have isGuard := may.1
    rw [Operation.isGuard, isLabel] at isGuard
    cases isGuard
  · refine ⟨pos_of_ne_zero ?_, lt_trans below isNode⟩
    rintro rfl
    rw [loosens.opcode, isLabel] at isPure
    cases isPure

include inside in
theorem isMirrored_moved : (state.moved earlyExit guard).IsMirrored ∧
    guard ∈ (state.moved earlyExit guard).predecessors earlyExit := by
  have rerooted : (state.rerooted earlyExit guard).IsMirrored := GuardPaths.isMirrored_rerooted
    (loosens.mirrored.of_sameEdges inspects.sameEdges)
    (loosens.pulled_inside inspects isLabel isNode may)
  have size : (state.rerooted earlyExit guard).size = start.size :=
    (state.rewires_rerooted earlyExit guard).size.trans (inspects.sameEdges.size.trans loosens.size)
  have mirrored := rerooted.link .pullUp (size ▸ isNode) (size ▸ inside)
  exact ⟨mirrored, mirrored.mem_iff.mp (hasEdge_iff.mp (hasEdge_link.mpr
    (.inr ⟨rfl, rfl, may.apart.1, size ▸ isNode⟩)))⟩

include notFirst

theorem mem_moved (previous : source ∈ graph.predecessors target) :
    source ∈ (state.moved earlyExit guard).predecessors target ∨ target = guard ∨
      source = earlyExit ∧ (start.op target).opcode.isPure ∧
        0 ∈ (state.moved earlyExit guard).predecessors target := by
  by_cases isGuard : target = guard
  · exact .inr (.inl isGuard)
  by_cases isPulled : source = earlyExit ∧ target ∈ state.pulled
  · refine .inr (.inr ⟨isPulled.1, ?_, mem_predecessors_link (GuardPaths.zero_mem_rerooted
      (loosens.mirrored.of_sameEdges inspects.sameEdges)
      (loosens.pulled_inside inspects isLabel isNode may) notFirst isPulled.2)⟩)
    exact loosens.opcode target ▸ ((inspects.pulled target isPulled.2).resolve_left isGuard).2
  · rw [← inspects.sameEdges.predecessors] at previous
    obtain ⟨edge, isEdge, rfl⟩ := mem_map.mp previous
    exact .inl (mem_map_of_mem (GuardPaths.mem_depends_moved isEdge
      (fun same => absurd same isGuard) fun member same => isPulled ⟨same, member⟩))

omit isLabel isNode in
/-- Nothing leads from the early exit to the guard any more: each path was cut at one of its
ends. -/
theorem apart_moved (isPaths : graph.paths guard earlyExit maxPaths = some paths) :
    ∀ node ∈ relaxed ++ [guard], ∀ rest,
      ¬ PathSearch.Descends (state.moved earlyExit guard).predecessors earlyExit node rest := by
  intro node member rest descends
  -- An edge of a path is none of the new ones, since those come from the label or lead to the exit.
  have isOld : ∀ {target source}, source ∈ (state.moved earlyExit guard).predecessors target →
      earlyExit ≤ source → source < target → source ∈ state.graph.predecessors target ∧
        (target = guard → source ∉ state.cut) ∧ (target ∈ state.pulled → source ≠ earlyExit) := by
    intro target source previous above below
    rcases GuardPaths.of_mem_predecessors_moved previous with ⟨rfl, _⟩ | ⟨_, rfl⟩ | isOld
    · omega
    · omega
    · exact isOld
  have wasThere : PathSearch.Descends graph.predecessors earlyExit node rest := by
    refine descends.mono fun target source previous above below => ?_
    rw [← inspects.sameEdges.predecessors]
    exact (isOld previous above below).1
  rcases mem_append.mp member with isRelaxed | isNew
  · exact loosens.apart node isRelaxed rest wasThere
  cases mem_singleton.mp isNew
  cases rest with
  | nil => exact may.apart.1 descends
  | cons input rest =>
    have above := descends.2.2.goal_le
    rcases inspects.covers _ (loosens.paths_eq may isPaths ▸
      mem_descents.mpr ⟨_, rfl, wasThere⟩) with isCut | isPulled
    · exact (isOld descends.1 above descends.2.1).2.1 rfl isCut
    have fed := descends.goal_mem (cons_ne_nil _ _) guard
    rcases GuardPaths.of_mem_predecessors_moved fed with ⟨isFirst, _⟩ | ⟨isGuard, _⟩ | isOld
    · exact ne_of_gt notFirst isFirst
    · exact may.apart.1 isGuard.symm
    · exact isOld.2.2 isPulled rfl

include inside

theorem relax (isPaths : graph.paths guard earlyExit maxPaths = some paths) :
    Loosens earlyExit start (relaxed ++ [guard]) (state.relax 0 earlyExit guard) := by
  have inspected := loosens.inspected inspects may
  have rewires := state.rewires_moved earlyExit guard
  have same := (state.moved earlyExit guard).sameEdges_relaxGuard guard earlyExit
  have sameEdges : ((state.moved earlyExit guard).relaxGuard guard earlyExit).predecessors =
      (state.moved earlyExit guard).predecessors := funext same.predecessors
  have fields := (state.moved earlyExit guard).fields_relaxGuard guard earlyExit
  have isOp := (state.moved earlyExit guard).op_relaxGuard guard earlyExit
  have size : (state.moved earlyExit guard).size = start.size := rewires.size.trans inspected.size
  have isSnapshot : (state.graph.op earlyExit).snapshot = (start.op earlyExit).snapshot := by
    rw [inspected.op earlyExit fun isRelaxed => (loosens.may _ isRelaxed).2.apart.1 rfl]
  obtain ⟨mirrored, waits⟩ := loosens.isMirrored_moved inspects isLabel inside isNode may
  have isMember : ∀ {node}, node ∈ relaxed ++ [guard] ↔ node ∈ relaxed ∨ node = guard := by
    simp
  rw [GuardPaths.relax_eq]
  refine
    { mirrored := mirrored.of_sameEdges same
      size := same.size.trans size
      pack := fun node => (fields node).2.trans ((rewires.pack node).trans (inspected.pack node))
      op := fun node plain => ?_
      may := fun node member => ?_
      resumes := fun node member => ?_
      waits := fun node member => ?_
      apart := sameEdges ▸ loosens.apart_moved inspects notFirst may isPaths
      forward := fun source target previous => ?_
      kept := fun source target previous => ?_
      data := fun source target apart edge => ?_
      raised := fun node => ?_ }
  · rw [isMember, not_or] at plain
    rw [isOp, if_neg fun here => plain.2 here.1.symm, rewires.op, inspected.op node plain.1]
  · rcases isMember.mp member with isRelaxed | rfl
    · exact loosens.may node isRelaxed
    · exact ⟨isNode, may⟩
  · rw [isOp, rewires.op, rewires.op, isSnapshot]
    by_cases isRelaxed : node ∈ relaxed
    · rw [inspected.resumes node isRelaxed]
      split <;> rfl
    · obtain rfl := (isMember.mp member).resolve_left isRelaxed
      rw [if_pos ⟨rfl, size ▸ isNode⟩, inspected.op node isRelaxed]
  · rw [sameEdges]
    rcases isMember.mp member with isRelaxed | rfl
    · rcases loosens.mem_moved inspects isLabel notFirst isNode may (loosens.waits node isRelaxed)
        with isKept | isGuard | ⟨isExit, _⟩
      · exact isKept
      · exact absurd isGuard.symm may.apart.1
      · exact absurd isExit (loosens.may node isRelaxed).2.apart.1
    · exact waits
  · rw [sameEdges] at previous
    rcases GuardPaths.of_mem_predecessors_moved previous with
      ⟨rfl, isPulled⟩ | ⟨rfl, isExit⟩ | ⟨isOld, _⟩
    · exact .inl (loosens.pulled_inside inspects isLabel isNode may target isPulled).1
    · exact .inr ⟨isExit, isMember.mpr (.inr rfl)⟩
    · exact (inspected.forward source target isOld).imp_right
        (And.imp_right fun isRelaxed => isMember.mpr (.inl isRelaxed))
  · rw [sameEdges]
    rcases loosens.kept source target previous with isKept | isRelaxed | ⟨isExit, isPure, isFed⟩
    · rcases loosens.mem_moved inspects isLabel notFirst isNode may isKept with
        isKept | isGuard | isFed
      · exact .inl isKept
      · exact .inr (.inl (isMember.mpr (.inr isGuard)))
      · exact .inr (.inr isFed)
    · exact .inr (.inl (isMember.mpr (.inl isRelaxed)))
    · refine .inr (.inr ⟨isExit, isPure, ?_⟩)
      rcases loosens.mem_moved inspects isLabel notFirst isNode may isFed with
        isKept | isGuard | ⟨isFirst, _⟩
      · exact isKept
      · rw [isGuard] at isPure
        exact absurd ((Opcode.isGuard_of_isPure isPure).symm.trans may.1) Bool.false_ne_true
      · exact absurd isFirst (Nat.ne_of_lt notFirst)
  · rw [same.depends]
    refine GuardPaths.mem_depends_moved (inspected.data source target apart edge)
      (fun isGuard isCut => inspects.cut source isCut ?_) fun _ => apart
    exact isGuard ▸ loosens.data source target apart edge
  · rw [(fields node).1, rewires.priority]
    exact inspected.raised node

end

/-- One step relaxes the guard, or leaves all as it is. -/
theorem step {state : Relaxation} (loosens : Loosens earlyExit start relaxed state.graph)
    (isLabel : (start.op 0).opcode = .label) (notFirst : 0 < earlyExit)
    (inside : earlyExit < start.size) (isNode : guard < start.size)
    (isGuard : (start.op guard).isGuard) (maxPaths : Nat) :
    ∃ added, added.Sublist [guard] ∧
      (Relaxation.step 0 earlyExit maxPaths state guard).relaxed = state.relaxed + added.length ∧
      Loosens earlyExit start (relaxed ++ added)
        (Relaxation.step 0 earlyExit maxPaths state guard).graph := by
  have unchanged : ∃ added, added.Sublist [guard] ∧ state.relaxed = state.relaxed + added.length ∧
      Loosens earlyExit start (relaxed ++ added) state.graph :=
    ⟨[], nil_sublist _, rfl, by rwa [append_nil]⟩
  unfold Relaxation.step
  split
  next isCandidate =>
    have may := loosens.mayRelax isGuard isCandidate
    split
    · exact unchanged
    rename_i paths isPaths
    have unseen : GuardPaths.Inspects guard state.graph [] { graph := state.graph } :=
      ⟨SameEdges.refl _, fun _ => rfl, fun _ => rfl, fun _ => .inl rfl, nofun, nofun, nofun⟩
    have arePaths : ∀ nodes ∈ paths,
        nodes ∈ descents state.graph.predecessors earlyExit guard := by
      rw [loosens.paths_eq may isPaths]
      exact fun _ => id
    split
    next inspected isInspected =>
      obtain ⟨_, inspects, _⟩ := unseen.inspect loosens.mirrored may.apart.1 arePaths isInspected
      refine ⟨[], nil_sublist _, rfl, ?_⟩
      rw [append_nil]
      exact loosens.inspected inspects may
    next inspected isInspected =>
      obtain ⟨looked, inspects, whole⟩ := unseen.inspect loosens.mirrored may.apart.1 arePaths isInspected
      rw [whole rfl] at inspects
      exact ⟨[guard], List.Sublist.refl _, rfl,
        loosens.relax inspects isLabel notFirst inside isNode may isPaths⟩
  · exact unchanged

end Loosens

/-- Relaxing all guards where that is possible loosens the graph. -/
theorem exists_loosens {ops : List Operation} (built : ofOperations ops = .ok graph)
    (isRelaxation : ofGraph? graph maxPaths = some relaxation) :
    ∃ earlyExit relaxed, graph.earlyExit = some earlyExit ∧ (graph.op 0).opcode = .label ∧
      Loosens earlyExit graph relaxed relaxation.graph ∧ relaxed.Sublist graph.guards ∧
      relaxation.relaxed = relaxed.length := by
  unfold ofGraph? at isRelaxation
  split at isRelaxation
  next label earlyExit isLabel isEarlyExit =>
    cases isRelaxation
    obtain ⟨rfl, isLabel, _⟩ := label_eq_some isLabel
    have notFirst := earlyExit_pos built isLabel isEarlyExit
    have inside := (earlyExit_eq_some built isEarlyExit).1
    -- All guards that have been tried so far are among the guards of the graph.
    have run : ∀ (guards relaxed : List Nat) (state : Relaxation), (∀ guard ∈ guards,
        guard < graph.size ∧ (graph.op guard).isGuard = true) → state.relaxed = relaxed.length →
        Loosens earlyExit graph relaxed state.graph → ∃ added, added.Sublist guards ∧
          (guards.foldl (Relaxation.step 0 earlyExit maxPaths) state).relaxed =
            (relaxed ++ added).length ∧
          Loosens earlyExit graph (relaxed ++ added)
            (guards.foldl (Relaxation.step 0 earlyExit maxPaths) state).graph := by
      intro guards
      induction guards with
      | nil =>
        intro relaxed state _ counted loosens
        exact ⟨[], nil_sublist _, by rwa [append_nil], by rwa [append_nil]⟩
      | cons guard rest ih =>
        intro relaxed state areGuards counted loosens
        obtain ⟨isNode, isGuard⟩ := areGuards guard mem_cons_self
        obtain ⟨first, isFirst, counts, loosens⟩ :=
          loosens.step isLabel notFirst inside isNode isGuard maxPaths
        obtain ⟨later, isLater, counted, loosens⟩ := ih (relaxed ++ first) _
          (fun other member => areGuards other (mem_cons_of_mem _ member))
          (by rw [counts, counted, length_append]) loosens
        rw [append_assoc] at counted loosens
        exact ⟨first ++ later, isFirst.append isLater, counted, loosens⟩
    obtain ⟨relaxed, isSublist, counted, loosens⟩ :=
      run graph.guards [] { graph := graph } (fun _ => (mem_guards_iff built).mp) rfl
        (.refl built earlyExit)
    exact ⟨earlyExit, relaxed, isEarlyExit, isLabel, loosens, isSublist, counted⟩
  · cases isRelaxation

/-! ## The new order -/

namespace DependencyGraph

variable {ops body scheduled : List Operation} {label closing : Operation} {supply : BoxSupply}
  {header : List Box} {order relaxed : List Nat}

theorem scheduledOperations_eq {turns : List (Turn × Nat)}
    (isSchedule : graph.schedule [] [] = (turns, none))
    (isMap : turns.map Prod.fst = order.map .node) :
    scheduledOperations graph = .ok (order.map graph.op) := by
  unfold scheduledOperations
  rw [isSchedule]
  clear isSchedule
  refine congrArg Except.ok ?_
  induction turns generalizing order with
  | nil =>
    cases map_eq_nil_iff.mp isMap.symm
    rfl
  | cons turn rest ih =>
    obtain ⟨node, order, rfl, isTurn, isRest⟩ := map_eq_cons_iff.mp isMap.symm
    obtain ⟨turn, left⟩ := turn
    cases isTurn
    exact congrArg (graph.op node :: ·) (ih isRest.symm)

theorem exists_order (mirrored : graph.IsMirrored) (pack : ∀ node, (graph.node node).pack = none)
    (isScheduled : scheduledOperations graph = .ok scheduled) :
    ∃ order, scheduled = order.map graph.op ∧ graph.IsSchedule order := by
  cases result : graph.schedule [] [] with
  | mk turns fault =>
    cases fault with
    | some fault =>
      rw [scheduledOperations, result] at isScheduled
      cases isScheduled
    | none =>
      obtain ⟨order, isMap, isSchedule⟩ := exists_isSchedule mirrored pack result
      rw [scheduledOperations_eq result isMap] at isScheduled
      cases isScheduled
      exact ⟨order, rfl, isSchedule⟩

/-- In an order in which nodes come after those they wait for, operations that get their boxes from
the header or from there are in scope. -/
theorem IsOrder.scopedFrom (isOrder : graph.IsOrder order) {op : Nat → Operation}
    (reads : ∀ node < graph.size, ∀ box, .box box ∈ (op node).uses →
      box ∈ header ∨ ∃ source ∈ graph.predecessors node, (op source).result = some box)
    (own : ∀ first second box, (op first).result = some box →
      (op second).result = some box → first = second)
    (fresh : ∀ node box, (op node).result = some box → box ∉ header) :
    ScopedFrom header (order.map op) := by
  rw [scopedFrom_iff_getElem?]
  intro place found isFound
  rw [getElem?_map, Option.map_eq_some_iff] at isFound
  obtain ⟨node, isNode, rfl⟩ := isFound
  have shape : order = order.take place ++ node :: order.drop (place + 1) := by
    rw [← List.getElem?_eq_some_iff.mp isNode |>.2, ← drop_eq_getElem_cons,
      take_append_drop]
  rw [← map_take]
  refine ⟨fun value isUse box isBox => ?_, fun box isResult isDefined => ?_⟩
  · cases value with
    | const literal => cases isBox
    | box used =>
      cases isBox
      rcases reads node (isOrder.mem_iff.mp (mem_of_getElem? isNode)) box isUse with
        isInput | ⟨source, previous, isResult⟩
      · exact mem_append_left _ isInput
      · refine mem_append_right _ (mem_filterMap.mpr ⟨_, ?_, isResult⟩)
        exact mem_map_of_mem (isOrder.ordered _ node _ shape source previous)
  · rcases mem_append.mp isDefined with isInput | made
    · exact fresh node box isResult isInput
    obtain ⟨maker, isMaker, alsoResult⟩ := mem_filterMap.mp made
    obtain ⟨other, isOther, rfl⟩ := mem_map.mp isMaker
    have same := own other node box alsoResult isResult
    have distinct := isOrder.nodup
    rw [shape, nodup_append'] at distinct
    exact distinct.2.2 isOther (same ▸ mem_cons_self)

theorem isAnchored_of_earlyExit (built : ofOperations ops = .ok graph)
    (isLabel : (graph.op 0).opcode = .label) (isExit : graph.earlyExit = some earlyExit) :
    graph.IsAnchored := by
  have notFirst := earlyExit_pos built isLabel isExit
  have inside := (earlyExit_eq_some built isExit).1
  have lists := lists_of_ofOperations built
  rw [lists.size] at inside
  match ops with
  | [] => cases inside
  | [op] => exact absurd (lt_of_lt_of_le notFirst (le_of_lt_succ inside)) (Nat.lt_irrefl 0)
  | label :: second :: rest =>
    rw [lists.op 0 label rfl] at isLabel
    exact isAnchored_of_ofOperations isLabel (cons_ne_nil _ _) built

section

variable (loop : IsLoop ops label body closing)

include loop

theorem ops_of_isLoop (built : ofOperations ops = .ok graph) :
    graph.op 0 = label ∧ graph.op (graph.size - 1) = closing := by
  have lists := lists_of_ofOperations built
  refine ⟨lists.op 0 label ?_, lists.op _ closing ?_⟩
  · rw [loop.shape]
    rfl
  · rw [lists.size, loop.shape, ← getLast?_eq_getElem?, ← cons_append,
      getLast?_append]
    rfl

theorem inner_of_isLoop
    (built : ofOperations ops = .ok graph) :
    ∀ node < graph.size, (graph.op node).opcode.isPure ∨ (graph.op node).isGuard →
      0 < node ∧ node + 1 < graph.size := by
  obtain ⟨isFirst, isLast⟩ := ops_of_isLoop loop built
  intro node inside kind
  obtain ⟨notLabel, notJump⟩ := Opcode.isInner kind
  constructor
  · refine pos_of_ne_zero fun same => notLabel ?_
    rw [same, isFirst]
    exact loop.isLabel
  · refine lt_of_le_of_ne inside fun same => ?_
    rw [show node = graph.size - 1 by omega, isLast] at notLabel notJump
    exact loop.closes.elim notJump notLabel

theorem isSupplied_of_isLoop
    (tidy : ∀ op ∈ ops, op.IsTidy label.argBoxes) (built : ofOperations ops = .ok graph) :
    graph.IsSupplied label.argBoxes := by
  obtain rfl := loop.shape
  exact isSupplied_of_ofOperations loop.isLabel loop.inScope tidy built

end

end DependencyGraph

namespace Loosens

variable {order relaxed : List Nat} {header : List Box}

section

variable (loosens : Loosens earlyExit start relaxed graph)

include loosens

theorem least (node : Nat) : 0 ≤ (graph.node node).priority := by
  rcases loosens.raised node with lowest | ⟨least, _⟩
  · exact Int.le_of_eq lowest.symm
  · exact least

theorem lowest (impure : (start.op node).opcode.isPure = false) : (graph.node node).priority = 0 :=
  (loosens.raised node).resolve_right fun raised =>
    Bool.false_ne_true (impure.symm.trans raised.2.1)

/-- Nodes behind the early exit rank higher than all others, so the early exit ranks higher than
the relaxed guards. -/
theorem exists_schedule : ∃ order, scheduledOperations graph = .ok (order.map graph.op) ∧
      graph.IsSchedule order := by
  classical
  have rises : ∀ source target, source ∈ graph.predecessors target →
      (if ∃ rest, PathSearch.Descends graph.predecessors earlyExit source rest
        then graph.size + source else source) <
      if ∃ rest, PathSearch.Descends graph.predecessors earlyExit target rest
        then graph.size + target else target := by
    intro source target previous
    have inside := loosens.mirrored.source_lt previous
    rcases loosens.forward source target previous with before | ⟨rfl, isRelaxed⟩
    · by_cases behind : ∃ rest, PathSearch.Descends graph.predecessors earlyExit source rest
      · obtain ⟨rest, descends⟩ := behind
        rw [if_pos ⟨rest, descends⟩, if_pos ⟨source :: rest, previous, before, descends⟩]
        omega
      · rw [if_neg behind]
        split <;> omega
    · rw [if_neg fun ⟨rest, descends⟩ => loosens.apart source isRelaxed rest descends,
        if_pos ⟨[], rfl⟩]
      omega
  obtain ⟨turns, order, scheduled, isMap, isSchedule⟩ :=
    exists_schedule_of_rank loosens.mirrored loosens.pack _ rises
  exact ⟨order, scheduledOperations_eq scheduled isMap, isSchedule⟩

end

section

variable (loosens : Loosens earlyExit start relaxed graph) (isSchedule : graph.IsSchedule order)
  (anchored : start.IsAnchored)

include loosens isSchedule anchored

/-- The label still goes first: what has a higher priority waits for something. -/
theorem exists_order_eq_cons (notFirst : 0 < earlyExit) : ∃ rest, order = 0 :: rest := by
  have large := loosens.size ▸ anchored.large
  cases order with
  | nil =>
    have member := isSchedule.mem_iff.mpr large
    cases member
  | cons first rest =>
    refine ⟨rest, congrArg (· :: rest) ?_⟩
    by_contra later
    have waiting : graph.predecessors first = [] := eq_nil_iff_forall_not_mem.mpr
      fun source previous => not_mem_nil (isSchedule.ordered [] first rest rfl source previous)
    have ready : ∀ source ∈ graph.predecessors 0, source ∈ ([] : List Nat) := by
      intro source previous
      rcases loosens.forward source 0 previous with before | ⟨isExit, _⟩
      · exact absurd before (Nat.not_lt_zero source)
      · exact absurd isExit (Nat.ne_of_lt notFirst)
    rcases isSchedule.outranks [] first rest rfl 0 (Nat.zero_lt_of_lt large) not_mem_nil ready
      with higher | ⟨_, before⟩
    · have least := loosens.least 0
      obtain ⟨_, isPure, _⟩ := (loosens.raised first).resolve_left fun lowest => by omega
      obtain ⟨source, previous⟩ := exists_mem_of_ne_nil _
        (anchored.waits first (pos_of_ne_zero later)
          (loosens.size ▸ isSchedule.mem_iff.mp mem_cons_self))
      have kept := loosens.kept source first previous
      rw [waiting] at kept
      rcases kept with isKept | isRelaxed | ⟨_, _, isFed⟩
      · cases isKept
      · exact loosens.not_mem_of_isPure isPure isRelaxed
      · cases isFed
    · exact later (le_zero.mp before)

/-- The closing operation still goes last: what followed it would not have waited for it. -/
theorem exists_ends (notFirst : 0 < earlyExit)
    (isLast : (start.op (start.size - 1)).opcode.isPure = false ∧
      (start.op (start.size - 1)).isGuard = false) :
    ∃ between, order = 0 :: (between ++ [start.size - 1]) := by
  have large := anchored.large
  obtain ⟨rest, rfl⟩ := loosens.exists_order_eq_cons isSchedule anchored notFirst
  have isMember : start.size - 1 ∈ 0 :: rest := by
    rw [isSchedule.mem_iff, loosens.size]
    omega
  obtain ⟨between, later, rfl⟩ :=
    append_of_mem ((mem_cons.mp isMember).resolve_left (by omega))
  cases later with
  | nil => exact ⟨between, rfl⟩
  | cons node later =>
    have inside : node < start.size := by
      rw [← loosens.size, ← isSchedule.mem_iff]
      simp
    have distinct := isSchedule.nodup
    rw [← cons_append, nodup_append'] at distinct
    have ready : ∀ source ∈ graph.predecessors node, source ∈ 0 :: between := by
      intro source previous
      have isEarlier := isSchedule.ordered ((0 :: between) ++ [start.size - 1]) node later
        (by simp) source previous
      refine (mem_append.mp isEarlier).resolve_right fun isSource => ?_
      rw [mem_singleton.mp isSource] at previous
      rcases loosens.forward _ node previous with before | ⟨_, isRelaxed⟩
      · omega
      · exact Bool.false_ne_true (isLast.2.symm.trans (loosens.may _ isRelaxed).2.1)
    have isLeft : node ∉ 0 :: between := fun isEarlier => distinct.2.2 isEarlier (by simp)
    have apart : node ≠ start.size - 1 := fun same => by simp [same] at distinct
    rcases isSchedule.outranks (0 :: between) _ (node :: later) rfl node (loosens.size ▸ inside)
      isLeft ready with higher | ⟨_, before⟩
    · have least := loosens.least node
      rw [loosens.lowest isLast.1] at higher
      omega
    · omega

end

/-- Nodes still get their boxes from the header or along edges: a relaxed guard names boxes of the
header only, and the early exit defines nothing. -/
theorem isSupplied (loosens : Loosens earlyExit start relaxed graph)
    (supplied : start.IsSupplied header) (inside : earlyExit < start.size)
    (isExit : (start.op earlyExit).opcode = .guardEarlyExit) : graph.IsSupplied header := by
  have tidy := supplied.tidy earlyExit inside
  have atHeader := tidy.atHeader (.inr isExit)
  have void : (start.op earlyExit).result = none := tidy.void (by rw [isExit]; rfl)
  have same := loosens.args_result
  have defines : ∀ {source box}, (start.op source).result = some box → source ≠ earlyExit := by
    rintro source box isResult rfl
    exact Option.some_ne_none box (isResult.symm.trans void)
  refine ⟨fun node isNode box isArg => ?_, fun node isNode box isFailArg => ?_,
    fun node isNode => ?_, fun first second box => ?_, fun node box => ?_⟩
  · rw [(same node).1] at isArg
    refine (supplied.args node (loosens.size ▸ isNode) box isArg).imp_right ?_
    rintro ⟨source, edge, isResult⟩
    exact ⟨source, loosens.data source node (defines isResult) edge,
      (same source).2.trans isResult⟩
  · by_cases isRelaxed : node ∈ relaxed
    · rw [loosens.resumes node isRelaxed] at isFailArg
      exact .inl (atHeader box isFailArg)
    rw [loosens.op node isRelaxed] at isFailArg
    refine (supplied.failArgs node (loosens.size ▸ isNode) box isFailArg).imp_right ?_
    rintro ⟨source, previous, isResult⟩
    refine ⟨source, ?_, (same source).2.trans isResult⟩
    exact (loosens.kept source node previous).resolve_right fun gone => gone.elim isRelaxed
      fun isFed => defines isResult isFed.1
  · have tidy := supplied.tidy node (loosens.size ▸ isNode)
    by_cases isRelaxed : node ∈ relaxed
    · rw [loosens.resumes node isRelaxed]
      refine ⟨tidy.void, fun noGuard => ?_, fun _ => atHeader⟩
      exact absurd (noGuard.symm.trans (loosens.may node isRelaxed).2.1) Bool.false_ne_true
    · rwa [loosens.op node isRelaxed]
  · rw [(same first).2, (same second).2]
    exact supplied.distinct first second box
  · rw [(same node).2]
    exact supplied.fresh node box

/-- The operations of a relaxed graph, in the order of its schedule, are a loop with the same
ends. -/
theorem exists_isLoop {ops body : List Operation} {label closing : Operation}
    (loosens : Loosens earlyExit start relaxed graph) (loop : IsLoop ops label body closing)
    (tidy : ∀ op ∈ ops, op.IsTidy label.argBoxes) (built : ofOperations ops = .ok start)
    (isExit : start.earlyExit = some earlyExit) (isSchedule : graph.IsSchedule order) :
    ∃ body, IsLoop (order.map graph.op) label body closing ∧
      ∀ op ∈ order.map graph.op, op.IsTidy label.argBoxes := by
  obtain ⟨isFirst, isLast⟩ := ops_of_isLoop loop built
  have inner := inner_of_isLoop loop built
  have isLabel : (start.op 0).opcode = .label := isFirst ▸ loop.isLabel
  have anchored := isAnchored_of_earlyExit built isLabel isExit
  obtain ⟨inside, isOpcode⟩ := earlyExit_eq_some built isExit
  have supplied := loosens.isSupplied (isSupplied_of_isLoop loop tidy built) inside isOpcode
  have large := anchored.large
  have notInner : ∀ node, node = 0 ∨ node + 1 = start.size →
      (start.op node).opcode.isPure = false ∧ (start.op node).isGuard = false := by
    intro node isEnd
    constructor <;> refine Bool.eq_false_iff.mpr fun kind => ?_
    · have := inner node (by omega) (.inl kind)
      omega
    · have := inner node (by omega) (.inr kind)
      omega
  have same : ∀ node, node = 0 ∨ node + 1 = start.size → graph.op node = start.op node := by
    intro node isEnd
    refine loosens.op node fun isRelaxed => ?_
    exact Bool.false_ne_true ((notInner node isEnd).2.symm.trans (loosens.may node isRelaxed).2.1)
  obtain ⟨between, rfl⟩ := loosens.exists_ends isSchedule anchored
    (earlyExit_pos built isLabel isExit) (notInner _ (.inr (by omega)))
  have shape : (0 :: (between ++ [start.size - 1])).map graph.op =
      label :: (between.map graph.op ++ [closing]) := by
    rw [map_cons, map_append, map_singleton, same 0 (.inl rfl),
      same _ (.inr (by omega)), isFirst, isLast]
  refine ⟨between.map graph.op, ⟨shape, loop.isLabel, loop.distinct, loop.closes, ?_⟩, ?_⟩
  · have fromHeader := isSchedule.scopedFrom (fun node inside box => supplied.exists_source inside)
      supplied.distinct supplied.fresh
    rw [shape] at fromHeader ⊢
    exact (scoped_iff_scopedFrom label _).mpr fromHeader
  · intro op member
    obtain ⟨node, isNode, rfl⟩ := mem_map.mp member
    exact supplied.tidy node (isSchedule.mem_iff.mp isNode)

end Loosens

theorem isTidyLoop_of_ofGraph? {ops body scheduled : List Operation} {label closing : Operation}
    {supply : BoxSupply} (loop : IsTidyLoop ops label body closing supply)
    (built : ofOperations ops = .ok graph)
    (isRelaxation : ofGraph? graph maxPaths = some relaxation)
    (isScheduled : scheduledOperations relaxation.graph = .ok scheduled) :
    ∃ body, IsTidyLoop scheduled label body closing supply := by
  obtain ⟨earlyExit, relaxed, isExit, _, loosens, _⟩ := exists_loosens built isRelaxation
  obtain ⟨order, rfl, isSchedule⟩ := exists_order loosens.mirrored loosens.pack isScheduled
  obtain ⟨body, isLoop, tidy⟩ :=
    loosens.exists_isLoop loop.toIsLoop loop.tidy built isExit isSchedule
  refine ⟨body, isLoop, tidy, isLoop.inScope.isAbove fun box isDefined => ?_⟩
  unfold definedBefore at isDefined
  rw [take_length] at isDefined
  rcases mem_append.mp isDefined with isInput | made
  · rw [isLoop.shape] at isInput
    exact loop.toIsLoop.id_lt_of_mem_boxes loop.above
      (mem_append_left _ (mem_append_left _ isInput))
  · obtain ⟨maker, isMaker, isResult⟩ := mem_filterMap.mp made
    obtain ⟨node, isNode, rfl⟩ := mem_map.mp isMaker
    rw [(loosens.args_result node).2] at isResult
    obtain ⟨op, found, isResult⟩ := (lists_of_ofOperations built).getElem?_op isResult
    exact (loop.above op (mem_of_getElem? found)).2 box isResult

end LinearTrace
