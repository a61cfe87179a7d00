import Mathlib.Data.List.Perm.Subperm
import LinearTrace.Dependency.Paths
import LinearTrace.Proofs.Dependency.Anchor
import LinearTrace.Proofs.Dependency.Memory

/-!
# Enumerating paths

Where edges lead forward, the inputs of a node come before it, so a search for paths
back to a goal never meets its own path again.  A search that ends has found every
descent to the goal once, in the order of the inputs.
-/

namespace LinearTrace

open List DependencyGraph

namespace PathSearch

variable {inputs : Nat → List Nat} {goal limit budget node source : Nat} {stack : List Frame}
  {rest nodes : List Nat} {found result : List (List Nat)}

/-- The nodes after the first one lead down to the goal, each being an input of the one before. -/
def Descends (inputs : Nat → List Nat) (goal : Nat) : Nat → List Nat → Prop
  | node, [] => node = goal
  | node, input :: rest => input ∈ inputs node ∧ input < node ∧ Descends inputs goal input rest

namespace Descends

section

variable (descends : Descends inputs goal node rest)

include descends

theorem goal_le : goal ≤ node := by
  induction rest generalizing node with
  | nil => exact Nat.le_of_eq descends.symm
  | cons input rest ih => exact Nat.le_trans (ih descends.2.2) (Nat.le_of_lt descends.2.1)

theorem mono {others : Nat → List Nat}
    (kept : ∀ node, ∀ input ∈ inputs node, goal ≤ input → input < node → input ∈ others node) :
    Descends others goal node rest := by
  induction rest generalizing node with
  | nil => exact descends
  | cons input rest ih =>
    obtain ⟨isInput, below, descends⟩ := descends
    exact ⟨kept node input isInput descends.goal_le below, below, ih descends⟩

theorem goal_mem (notEmpty : rest ≠ [])
    (otherwise : Nat) : goal ∈ inputs ((node :: rest).dropLast.getLastD otherwise) := by
  induction rest generalizing node otherwise with
  | nil => exact absurd rfl notEmpty
  | cons input rest ih =>
    obtain ⟨isInput, _, descends⟩ := descends
    cases rest with
    | nil =>
      rw [← show input = goal from descends]
      exact isInput
    | cons next rest =>
      rw [dropLast_cons_cons, getLastD_cons]
      exact ih descends (cons_ne_nil _ _) node

/-- A descent to the goal passes nodes below its first one only. -/
theorem exists_middle (apart : node ≠ goal) :
    ∃ middle, rest = middle ++ [goal] ∧ ∀ other ∈ middle, other < node := by
  induction rest generalizing node with
  | nil => exact absurd descends apart
  | cons input rest ih =>
    obtain ⟨_, below, descends⟩ := descends
    cases rest with
    | nil => exact ⟨[], congrArg ([·]) descends, nofun⟩
    | cons next rest =>
      have above : goal < input := Nat.lt_of_le_of_lt descends.2.2.goal_le descends.2.1
      obtain ⟨middle, isRest, inside⟩ := ih descends (Nat.ne_of_gt above)
      exact ⟨input :: middle, congrArg (input :: ·) isRest, forall_mem_cons.mpr
        ⟨below, fun other member => Nat.lt_trans (inside other member) below⟩⟩

end

end Descends

/-! ## All descents -/

/-- The descents from a node to the goal, in the order of the inputs. -/
def descents (inputs : Nat → List Nat) (goal node : Nat) : List (List Nat) :=
  if node = goal then [[goal]]
  else (inputs node).flatMap fun input =>
    if input < node then (descents inputs goal input).map (node :: ·) else []

theorem descents_goal : descents inputs goal goal = [[goal]] := by
  rw [descents, if_pos rfl]

theorem descents_of_closed (apart : node ≠ goal) (closed : ∀ input ∈ inputs node, input < node) :
    descents inputs goal node =
      (inputs node).flatMap fun input => (descents inputs goal input).map (node :: ·) := by
  rw [descents, if_neg apart]
  exact flatMap_congr fun input isInput => if_pos (closed input isInput)

theorem mem_descents :
    nodes ∈ descents inputs goal node ↔ ∃ rest, nodes = node :: rest ∧ Descends inputs goal node rest := by
  induction node using Nat.strongRecOn generalizing nodes with
  | _ node ih =>
    rw [descents]
    split
    next isGoal =>
      subst isGoal
      rw [mem_singleton]
      constructor
      · rintro rfl
        exact ⟨[], rfl, rfl⟩
      · rintro ⟨_ | ⟨input, rest⟩, rfl, descends⟩
        · rfl
        · exact absurd descends.2.1 (Nat.not_lt_of_le descends.2.2.goal_le)
    next apart =>
      rw [mem_flatMap]
      constructor
      · rintro ⟨input, isInput, member⟩
        split at member
        next below =>
          obtain ⟨later, isLater, rfl⟩ := mem_map.mp member
          obtain ⟨rest, rfl, descends⟩ := (ih input below).mp isLater
          exact ⟨input :: rest, rfl, isInput, below, descends⟩
        · cases member
      · rintro ⟨_ | ⟨input, rest⟩, rfl, descends⟩
        · exact absurd descends apart
        obtain ⟨isInput, below, descends⟩ := descends
        refine ⟨input, isInput, ?_⟩
        rw [if_pos below]
        exact mem_map_of_mem ((ih input below).mpr ⟨rest, rfl, descends⟩)

theorem descents_eq_nil (below : node < goal) : descents inputs goal node = [] := by
  refine eq_nil_iff_forall_not_mem.mpr fun nodes member => ?_
  obtain ⟨_, _, descends⟩ := mem_descents.mp member
  exact Nat.not_le_of_lt below descends.goal_le

theorem nodup_descents (distinct : ∀ node, (inputs node).Nodup) (goal node : Nat) :
    (descents inputs goal node).Nodup := by
  induction node using Nat.strongRecOn with
  | _ node ih =>
    rw [descents]
    split
    · exact nodup_singleton _
    refine nodup_flatMap.mpr ⟨fun input _ => ?_, (distinct node).imp ?_⟩
    · split
      next below => exact (ih input below).map fun _ _ => (cons.inj · |>.2)
      · exact nodup_nil
    -- Descents over different inputs differ in their second node.
    intro left right apart nodes isLeft isRight
    have second : ∀ input, nodes ∈ (if input < node then
        (descents inputs goal input).map (node :: ·) else []) → nodes.tail.head? = some input := by
      intro input member
      split at member
      · obtain ⟨later, isLater, rfl⟩ := mem_map.mp member
        obtain ⟨_, rfl, _⟩ := mem_descents.mp isLater
        rfl
      · cases member
    exact apart (Option.some.inj ((second left isLeft).symm.trans (second right isRight)))

/-! ## The search -/

/-- The paths that the frames of a stack still lead to. -/
def pendingPaths (inputs : Nat → List Nat) (goal : Nat) : List Frame → List (List Nat)
  | [] => []
  | frame :: below =>
    (frame.pending.flatMap fun input =>
      (descents inputs goal input).map (path (frame :: below) ++ ·)) ++
      pendingPaths inputs goal below

/-- What is still to be tried lies below the whole path that it would extend. -/
def Falls : List Frame → Prop
  | [] => True
  | frame :: below =>
    (∀ input ∈ frame.pending, ∀ node ∈ path (frame :: below), input < node) ∧ Falls below

theorem Falls.skip {input : Nat} {pending : List Nat} {below : List Frame}
    (falls : Falls (⟨node, input :: pending⟩ :: below)) : Falls (⟨node, pending⟩ :: below) :=
  ⟨fun other member => falls.1 other (mem_cons_of_mem _ member), falls.2⟩

theorem pendingPaths_cons (node input : Nat) (pending : List Nat) (below : List Frame) :
    pendingPaths inputs goal (⟨node, input :: pending⟩ :: below) =
      (descents inputs goal input).map (path (⟨node, pending⟩ :: below) ++ ·) ++
        pendingPaths inputs goal (⟨node, pending⟩ :: below) := by
  rw [pendingPaths, flatMap_cons, append_assoc]
  rfl

theorem path_cons (frame : Frame) (below : List Frame) :
    path (frame :: below) = path below ++ [frame.node] := by
  simp [path]

/-- A search that ends returns what it had found, followed by the paths that it still led to. -/
theorem search_eq (closed : ∀ node ≠ goal, ∀ input ∈ inputs node, input < node)
    (falls : Falls stack) (few : found.length ≤ limit)
    (searched : search inputs goal limit budget stack found = some result) :
    result = found ++ pendingPaths inputs goal stack ∧ result.length ≤ limit := by
  fun_induction search inputs goal limit budget stack found with
  | case1 =>
    cases searched
    exact ⟨(append_nil _).symm, few⟩
  | case2 found budget node below ih => exact ih falls.2 few searched
  | case3 => cases searched
  | case4 => cases searched
  | case5 found budget node pending below rest extended isFew ih =>
    obtain ⟨isResult, short⟩ := ih falls.skip (Nat.le_of_not_lt isFew) searched
    rw [pendingPaths_cons, descents_goal]
    exact ⟨isResult.trans (append_assoc ..), short⟩
  | case6 found budget node input pending below rest apart skipped ih =>
    have tooLow : input < goal := skipped.resolve_right fun onPath =>
      Nat.lt_irrefl input (falls.1 input mem_cons_self input onPath)
    rw [pendingPaths_cons, descents_eq_nil tooLow]
    exact ih falls.skip few searched
  | case7 found budget node input pending below rest apart taken ih =>
    have isBelow := closed input apart
    rw [pendingPaths_cons, descents_of_closed apart isBelow]
    have deeper : Falls (⟨input, inputs input⟩ :: rest) := by
      refine ⟨fun next isNext other member => ?_, falls.skip⟩
      rw [path_cons] at member
      rcases mem_append.mp member with onPath | isInput
      · exact Nat.lt_trans (isBelow next isNext) (falls.1 input mem_cons_self other onPath)
      · rw [mem_singleton.mp isInput]
        exact isBelow next isNext
    obtain ⟨isResult, short⟩ := ih deeper few searched
    refine ⟨isResult.trans ?_, short⟩
    rw [pendingPaths, path_cons, map_flatMap]
    simp only [map_map, Function.comp_def, append_assoc, singleton_append]
    rfl

end PathSearch

open PathSearch

namespace DependencyGraph

variable {graph : DependencyGraph} {source goal limit : Nat} {paths : List (List Nat)}

theorem paths_eq (forward : ∀ node ≠ goal, ∀ input ∈ graph.predecessors node, input < node)
    (below : ∀ input ∈ graph.predecessors source, input < source)
    (isPaths : graph.paths source goal limit = some paths) :
    (paths = if source = goal then [] else descents graph.predecessors goal source) ∧
      paths.length ≤ limit := by
  have falls : Falls [⟨source, graph.predecessors source⟩] := by
    refine ⟨fun input isInput node member => ?_, trivial⟩
    rw [mem_singleton.mp member]
    exact below input isInput
  obtain ⟨isResult, short⟩ := search_eq forward falls (Nat.zero_le limit) isPaths
  refine ⟨isResult.trans ?_, short⟩
  rw [nil_append, pendingPaths, pendingPaths, append_nil]
  split
  · -- The inputs of the goal lie in front of it.
    rename_i isGoal
    refine flatMap_eq_nil_iff.mpr fun input isInput => ?_
    rw [descents_eq_nil (isGoal ▸ below input isInput), map_nil]
  next apart =>
    rw [descents_of_closed apart below]
    rfl

/-- A path of at least one edge from the goal to the source, listed backwards. -/
structure IsBackwardPath (graph : DependencyGraph) (source goal : Nat) (nodes : List Nat) :
    Prop where
  long : 2 ≤ nodes.length
  first : nodes.head? = some source
  last : nodes.getLast? = some goal
  linked : nodes.IsChain fun later earlier => graph.hasEdge earlier later = true

section

variable {ops : List Operation} (built : ofOperations ops = .ok graph)

include built

theorem descends_iff {node : Nat} {rest : List Nat} : Descends graph.predecessors goal node rest ↔
      (node :: rest).getLast? = some goal ∧
        (node :: rest).IsChain fun later earlier => graph.hasEdge earlier later = true := by
  induction rest generalizing node with
  | nil => simp [Descends]
  | cons input rest ih =>
    have isEdge : graph.hasEdge input node = true ↔ input ∈ graph.predecessors node :=
      hasEdge_iff.trans (isMirrored_of_ofOperations built).mem_iff
    have forward : input ∈ graph.predecessors node → input < node := lt_of_mem_predecessors built
    rw [Descends, ih, getLast?_cons_cons, isChain_cons_cons, isEdge]
    tauto

theorem isBackwardPath_iff {nodes : List Nat} :
    graph.IsBackwardPath source goal nodes ↔ ∃ input rest, nodes = source :: input :: rest ∧
      Descends graph.predecessors goal source (input :: rest) := by
  constructor
  · rintro ⟨long, first, last, linked⟩
    match nodes, long with
    | node :: input :: rest, _ =>
      cases Option.some.inj first
      exact ⟨input, rest, rfl, (descends_iff built).mpr ⟨last, linked⟩⟩
  · rintro ⟨input, rest, rfl, descends⟩
    obtain ⟨last, linked⟩ := (descends_iff built).mp descends
    exact ⟨by simp, rfl, last, linked⟩

theorem mem_paths_iff (isPaths : graph.paths source goal limit = some paths) {nodes : List Nat} :
    nodes ∈ paths ↔ graph.IsBackwardPath source goal nodes := by
  have forward : ∀ node, ∀ input ∈ graph.predecessors node, input < node :=
    fun _ _ => lt_of_mem_predecessors built
  obtain ⟨rfl, _⟩ := paths_eq (fun node _ => forward node) (forward source) isPaths
  rw [isBackwardPath_iff built]
  split
  next isGoal =>
    refine ⟨nofun, fun ⟨input, rest, _, _, below, descends⟩ => ?_⟩
    exact absurd (isGoal ▸ below) (Nat.not_lt_of_le descends.goal_le)
  rename_i apart
  rw [mem_descents]
  constructor
  · rintro ⟨_ | ⟨input, rest⟩, rfl, descends⟩
    · exact absurd descends apart
    · exact ⟨input, rest, rfl, descends⟩
  · rintro ⟨input, rest, rfl, descends⟩
    exact ⟨_, rfl, descends⟩

/-- A search for paths that ends returns all of them, each once; it gives up if there are too
many. -/
theorem paths_complete (source goal limit : Nat) :
    (∀ paths, graph.paths source goal limit = some paths →
      paths.Nodup ∧ ∀ nodes, nodes ∈ paths ↔ graph.IsBackwardPath source goal nodes) ∧
    ∀ many : List (List Nat), many.Nodup →
      (∀ nodes ∈ many, graph.IsBackwardPath source goal nodes) →
        limit < many.length → graph.paths source goal limit = none := by
  have forward : ∀ node, ∀ input ∈ graph.predecessors node, input < node :=
    fun _ _ => lt_of_mem_predecessors built
  refine ⟨fun paths isPaths => ⟨?_, fun nodes => mem_paths_iff built isPaths⟩,
    fun many distinct arePaths tooMany => ?_⟩
  · obtain ⟨rfl, _⟩ := paths_eq (fun node _ => forward node) (forward source) isPaths
    split
    · exact nodup_nil
    · exact nodup_descents (fun node => nodup_predecessors built node) goal source
  · refine Option.eq_none_iff_forall_ne_some.mpr fun paths isPaths => ?_
    have few := (paths_eq (fun node _ => forward node) (forward source) isPaths).2
    have fits : many ⊆ paths := fun nodes member => (mem_paths_iff built isPaths).mpr
      (arePaths nodes member)
    exact Nat.not_lt_of_le (Nat.le_trans (distinct.subperm fits).length_le few) tooMany

end

open ScatteredStores in
/-- Four paths lead from the label to the jump, and a search for three gives up. -/
theorem paths_of_scatteredStores :
    ofOperations ScatteredStores.ops = .ok ScatteredStores.graph ∧
      (∀ nodes, nodes ∈ [[4, 0], [4, 1, 0], [4, 3, 0], [4, 3, 2, 0]] ↔
        ScatteredStores.graph.IsBackwardPath 4 0 nodes) ∧
      ScatteredStores.graph.paths 4 0 3 = none := by
  have four : ScatteredStores.graph.paths 4 0 4 =
      some [[4, 0], [4, 1, 0], [4, 3, 0], [4, 3, 2, 0]] := by
    unfold paths
    cbv
  obtain ⟨distinct, all⟩ := (paths_complete built 4 0 4).1 _ four
  exact ⟨built, all, (paths_complete built 4 0 3).2 _ distinct (fun nodes => (all nodes).mp)
    (by decide)⟩

end DependencyGraph

end LinearTrace
