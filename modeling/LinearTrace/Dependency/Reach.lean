import LinearTrace.Dependency

/-!
# Reachability

Depth-first search over the nodes of a graph. The search visits every node that
can be reached from its start, each once, and returns them in the order of their
visits.
-/

namespace LinearTrace

namespace Search

def unseen (seen : Array Bool) : Nat :=
  seen.count false

/-- Marking a node that was not seen lowers the number of unseen nodes. -/
theorem unseen_set_lt (seen : Array Bool) (position : Nat) (inRange : position < seen.size)
    (fresh : seen[position] = false) :
    unseen (seen.set position true) < unseen seen := by
  have member : false ∈ seen := fresh ▸ Array.getElem_mem inRange
  have positive : 0 < seen.count false := Array.count_pos_iff.mpr member
  simp only [unseen, Array.count_set, fresh]
  simp
  omega

/-- Depth-first search from a stack of nodes: the last successor of a node is visited first. -/
def visit (next : Nat → List Nat) (seen : Array Bool) (stack : List Nat) : List Nat :=
  match stack with
  | [] => []
  | position :: rest =>
    if inRange : position < seen.size then
      if fresh : seen[position] = false then
        position :: visit next (seen.set position true) ((next position).reverse ++ rest)
      else
        visit next seen rest
    else
      visit next seen rest
termination_by (unseen seen, stack.length)
decreasing_by
  · exact Prod.Lex.left _ _ (unseen_set_lt seen position inRange fresh)
  · exact Prod.Lex.right _ (Nat.lt_succ_self _)
  · exact Prod.Lex.right _ (Nat.lt_succ_self _)

end Search

namespace DependencyGraph

def visitFrom (graph : DependencyGraph) (next : Nat → List Nat) (stack : List Nat) : List Nat :=
  Search.visit next (Array.replicate graph.size false) stack

/-- The nodes that a node leads to, itself included. -/
def reachable (graph : DependencyGraph) (source : Nat) : List Nat :=
  graph.visitFrom graph.successors [source]

/-- The one node leads to the other; every node leads to itself. -/
def hasPath (graph : DependencyGraph) (source target : Nat) : Bool :=
  source == target || (graph.reachable source).contains target

/-- Neither of two different nodes leads to the other. -/
def independent (graph : DependencyGraph) (left right : Nat) : Bool :=
  left != right && !graph.hasPath left right && !graph.hasPath right left

/-- Reachability for positions that may lie outside the graph: a search that starts outside
aborts. -/
def hasPathChecked (graph : DependencyGraph) (source target : Nat) : Except Fault Bool := do
  if source = target then return true
  graph.require source
  return graph.hasPath source target

def independentChecked (graph : DependencyGraph) (left right : Nat) : Except Fault Bool := do
  if left = right then return false
  if ← graph.hasPathChecked left right then return false
  return !(← graph.hasPathChecked right left)

end DependencyGraph

end LinearTrace
