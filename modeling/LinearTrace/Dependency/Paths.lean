import LinearTrace.Dependency

/-!
# Enumerating paths

All paths that lead backwards along dependencies from one node to another. The
search gives up once there are more paths than asked for, or once it has looked
at more edges than a multiple of the graph's size.
-/

namespace LinearTrace

namespace PathSearch

/-- A node of the current path with the dependencies still to be tried. -/
structure Frame where
  node : Nat
  pending : List Nat

def path (stack : List Frame) : List Nat :=
  (stack.map Frame.node).reverse

/-- Extend `found` by the paths to `goal` that the stack still leads to. A dependency in front of
the goal is skipped, since edges run forward in program order, and so is one that is on the path
already. -/
def search (inputs : Nat → List Nat) (goal limit : Nat) (budget : Nat) (stack : List Frame)
    (found : List (List Nat)) : Option (List (List Nat)) :=
  match budget, stack with
  | _, [] => some found
  | budget, ⟨_, []⟩ :: below => search inputs goal limit budget below found
  | 0, ⟨_, _ :: _⟩ :: _ => none
  | budget + 1, ⟨node, input :: pending⟩ :: below =>
    let rest := ⟨node, pending⟩ :: below
    if input = goal then
      let found := found ++ [path rest ++ [goal]]
      if limit < found.length then none
      else search inputs goal limit budget rest found
    else if input < goal ∨ input ∈ path rest then
      search inputs goal limit budget rest found
    else
      search inputs goal limit budget (⟨input, inputs input⟩ :: rest) found
termination_by 2 * budget + stack.length
decreasing_by
  all_goals (simp only [List.length_cons]; omega)

end PathSearch

namespace DependencyGraph

/-- Every path from `source` backwards along dependencies to `goal`, unless there are more than
`limit` or the search takes too long. -/
def paths (graph : DependencyGraph) (source goal limit : Nat) : Option (List (List Nat)) :=
  PathSearch.search graph.predecessors goal limit (limit * max graph.size 1)
    [⟨source, graph.predecessors source⟩] []

end DependencyGraph

end LinearTrace
