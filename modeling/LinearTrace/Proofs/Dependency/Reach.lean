import Mathlib.Logic.Relation
import LinearTrace.Dependency.Reach

/-!
# What a search visits

A search stays inside every region that its neighbours do not leave.  It misses
nothing either: whatever can be reached from its start is visited.
-/

namespace LinearTrace

open List Array

variable {node count start : Nat} {seen : Array Bool}

namespace Search

variable {next : Nat → List Nat} {stack : List Nat}

/-- What holds at the start and along every edge holds of all visited nodes. -/
theorem forall_mem_visit {region : Nat → Prop} (seen : Array Bool)
    (start : ∀ node ∈ stack, region node)
    (closed : ∀ node, region node → ∀ other ∈ next node, region other) :
    ∀ node ∈ visit next seen stack, region node := by
  fun_induction visit next seen stack with
  | case1 => exact fun _ member => nomatch member
  | case2 seen position rest inRange fresh ih =>
    have here := start position mem_cons_self
    intro node member
    rcases mem_cons.mp member with rfl | later
    · exact here
    refine ih (fun other isNext => ?_) node later
    rcases mem_append.mp isNext with isNeighbour | isRest
    · exact closed position here other (mem_reverse.mp isNeighbour)
    · exact start other (mem_cons_of_mem _ isRest)
  | case3 seen position rest inRange visited ih =>
    exact ih fun node isRest => start node (mem_cons_of_mem _ isRest)
  | case4 seen position rest outside ih =>
    exact ih fun node isRest => start node (mem_cons_of_mem _ isRest)

theorem lt_size_of_mem_visit (visited : node ∈ visit next seen stack) : node < seen.size := by
  fun_induction visit next seen stack with
  | case1 => cases visited
  | case2 seen position rest inRange fresh ih =>
    rcases mem_cons.mp visited with rfl | later
    · exact inRange
    · have inside := ih later
      rwa [size_set] at inside
  | case3 seen position rest inRange _ ih => exact ih visited
  | case4 seen position rest outside ih => exact ih visited

theorem mem_cons_or_marked {position : Nat} {rest : List Nat} (inRange : position < seen.size)
    (found : node ∈ rest ∨ (seen.set position true)[node]? = some true) :
    node ∈ position :: rest ∨ seen[node]? = some true := by
  rcases found with later | marked
  · exact .inl (mem_cons_of_mem _ later)
  rw [Array.getElem?_set] at marked
  split at marked
  next same => exact .inl (same ▸ mem_cons_self)
  · exact .inr marked

theorem mem_visit_of_mem_stack (waits : node ∈ stack) (inside : node < seen.size) :
    node ∈ visit next seen stack ∨ seen[node]? = some true := by
  fun_induction visit next seen stack with
  | case1 => cases waits
  | case2 seen position rest inRange fresh ih =>
    rcases mem_cons.mp waits with rfl | later
    · exact .inl mem_cons_self
    exact mem_cons_or_marked inRange (ih (mem_append_right _ later) (by rwa [Array.size_set]))
  | case3 seen position rest inRange visited ih =>
    rcases mem_cons.mp waits with rfl | later
    · rw [Array.getElem?_eq_getElem inRange]
      exact .inr (congrArg some (Bool.not_eq_false _ ▸ visited))
    · exact ih later inside
  | case4 seen position rest outside ih =>
    rcases mem_cons.mp waits with rfl | later
    · exact absurd inside outside
    · exact ih later inside

theorem mem_visit_of_mem_next {other : Nat} (visited : node ∈ visit next seen stack)
    (isNext : other ∈ next node) (inside : other < seen.size) :
    other ∈ visit next seen stack ∨ seen[other]? = some true := by
  fun_induction visit next seen stack with
  | case1 => cases visited
  | case2 seen position rest inRange fresh ih =>
    refine mem_cons_or_marked inRange ?_
    rcases mem_cons.mp visited with rfl | later
    · exact mem_visit_of_mem_stack
        (mem_append_left _ (mem_reverse.mpr isNext)) (by rwa [size_set])
    · exact ih later (by rwa [size_set])
  | case3 seen position rest inRange _ ih => exact ih visited inside
  | case4 seen position rest outside ih => exact ih visited inside

theorem getElem?_replicate_ne (count node : Nat) :
    (Array.replicate count false)[node]? ≠ some true := by
  rw [Array.getElem?_replicate]
  split <;> simp

/-- A search follows every path from its start that stays in range. -/
theorem mem_visit_of_path {count start node : Nat} (waits : start ∈ stack) (inside : start < count)
    (path : Relation.ReflTransGen (fun node other => other ∈ next node ∧ other < count) start node) :
    node ∈ visit next (replicate count false) stack := by
  induction path with
  | refl =>
    exact (mem_visit_of_mem_stack waits (by rwa [size_replicate])).resolve_right
      (getElem?_replicate_ne count start)
  | tail _ step ih =>
    obtain ⟨isNext, below⟩ := step
    exact (mem_visit_of_mem_next ih isNext (by rwa [size_replicate])).resolve_right
      (getElem?_replicate_ne count _)

end Search

end LinearTrace
