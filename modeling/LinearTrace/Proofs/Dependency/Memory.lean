import Mathlib
import LinearTrace.Proofs.Dependency.Build

/-!
# The order of memory accesses

The accesses that a graph must keep in order are those that may touch the same
item, when one of them writes.  An access is only linked back to the latest write
that may touch its item, so an earlier access is ordered before it through that
write, or not at all: when the earlier access cannot touch what the write touches,
the write bypasses it.
-/

namespace LinearTrace

/-! ## Conflicts -/

/-- The operation at a position writes memory, or calls out. -/
def WritesAt (ops : List Operation) (position : Nat) : Prop :=
  ∃ access, accessAt ops position = some access ∧ access.writes = true

/-- The accesses at two positions may touch the same item. -/
def MayTouch (ops : List Operation) (first second : Nat) : Prop :=
  ∃ earlier later, accessAt ops first = some earlier ∧ accessAt ops second = some later ∧
    earlier.mayTouch later.memory = .ok true

/-- Two accesses, of which the first comes first, may touch the same item and one of them
writes. -/
structure MayConflict (ops : List Operation) (first second : Nat) : Prop where
  before : first < second
  touch : MayTouch ops first second
  write : WritesAt ops first ∨ WritesAt ops second

/-- Of two accesses that may conflict, the later one is linked to a write between them that
cannot touch what the earlier one touches. -/
structure Bypassed (ops : List Operation) (first write second : Nat) : Prop where
  conflict : MayConflict ops first second
  after : first < write
  before : write < second
  writes : WritesAt ops write
  touch : MayTouch ops write second
  latest : ∀ between, write < between → between < second → WritesAt ops between →
    ¬ MayTouch ops between second
  apart : ¬ MayTouch ops first write

section

variable {ops : List Operation}

/-- Of two accesses that may conflict, the later one is linked to the earlier one, or to the
latest write that may touch its item, which comes between them. -/
theorem hasEdge_or_latest {graph : DependencyGraph}
    (built : DependencyGraph.ofOperations ops = .ok graph) {first second : Nat}
    (conflict : MayConflict ops first second) :
    graph.hasEdge first second ∨
      ∃ write, graph.hasEdge write second ∧ first < write ∧ write < second ∧
        WritesAt ops write ∧ MayTouch ops write second ∧
        ∀ between, write < between → between < second → WritesAt ops between →
          ¬ MayTouch ops between second := by
  obtain ⟨earlier, later, isEarlier, isLater, touch⟩ := conflict.touch
  obtain ⟨links, scanned, edges⟩ := hasEdge_of_conflicts built isLater
  have earlierNode := accessAt_node isEarlier
  have member : earlier ∈ accessesBefore ops second := by
    rw [mem_accessesBefore, earlierNode]
    exact ⟨conflict.before, isEarlier⟩
  have write : earlier.writes = true ∨ later.writes = true := by
    rcases conflict.write with ⟨access, isAccess, writes⟩ | ⟨access, isAccess, writes⟩
    · cases isEarlier.symm.trans isAccess
      exact .inl writes
    · cases isLater.symm.trans isAccess
      exact .inr writes
  rcases Access.mem_conflicts scanned (pairwise_accessesBefore ops second) member touch write with
    isLink | ⟨stop, isLink, shadows⟩
  · rw [earlierNode] at isLink
    exact .inl (edges _ isLink)
  obtain ⟨before, isStop⟩ := mem_accessesBefore.mp shadows.member
  have after := shadows.after
  rw [earlierNode] at after
  refine .inr ⟨stop.node, edges _ isLink, after, before, ⟨stop, isStop, shadows.writes⟩,
    ⟨stop, later, isStop, isLater, shadows.touch⟩, ?_⟩
  rintro between above below ⟨access, isAccess, writes⟩ ⟨_, _, isTouching, isTouched, touches⟩
  cases isAccess.symm.trans isTouching
  cases isLater.symm.trans isTouched
  have node := accessAt_node isAccess
  refine shadows.latest access ?_ (by rw [node]; exact above) writes touches
  rw [mem_accessesBefore, node]
  exact ⟨below, isAccess⟩

/-- An access is ordered before all later ones that it may conflict with just when it is ordered
before those of them that a write bypasses. -/
theorem reaches_of_mayConflict_iff {graph : DependencyGraph}
    (built : DependencyGraph.ofOperations ops = .ok graph) (first last : Nat) :
    (∀ second ≤ last, MayConflict ops first second → graph.Reaches first second) ↔
      ∀ write, ∀ second ≤ last, Bypassed ops first write second → graph.Reaches first second := by
  constructor
  · intro ordered write second inside bypassed
    exact ordered second inside bypassed.conflict
  · intro ordered second
    induction second using Nat.strongRecOn with
    | ind second ih =>
      intro inside conflict
      rcases hasEdge_or_latest built conflict with
        edge | ⟨write, edge, after, before, writes, touch, latest⟩
      · exact Relation.TransGen.single edge
      · by_cases apart : MayTouch ops first write
        · have reached := ih write before (Nat.le_trans (Nat.le_of_lt before) inside)
            ⟨after, apart, Or.inr writes⟩
          exact reached.tail edge
        · exact ordered write second inside
            ⟨conflict, after, before, writes, touch, latest, apart⟩

end

/-! ## A call between a store and a load -/

namespace CallBetween

def store : Operation :=
  { opcode := .setArrayItemRaw, args := [.const (.ref 16), .int 0, .int 7],
    descriptor := some (.array (.ints 1 8)) }

def load : Operation :=
  { opcode := .getArrayItemRaw, args := [.const (.ref 16), .int 0], result := some ⟨0, .int⟩,
    descriptor := some (.array (.ints 1 8)) }

def ops : List Operation :=
  [{ opcode := .label, args := [] }, store, { opcode := .call, args := [.int 1] }, load,
    { opcode := .jump, args := [] }]

end CallBetween

/-- The load is linked to the call only, and through it to the store. -/
theorem reaches_of_callBetween :
    ∃ graph, DependencyGraph.ofOperations CallBetween.ops = .ok graph ∧ graph.Reaches 1 3 := by
  obtain ⟨graph, built⟩ : ∃ graph, DependencyGraph.ofOperations CallBetween.ops = .ok graph :=
    ⟨_, rfl⟩
  refine ⟨graph, built, (reaches_of_mayConflict_iff built 1 3).mpr ?_ 3 (Nat.le_refl 3) ?_⟩
  · intro write second inside bypassed
    have isCall : write = 2 := by
      have := bypassed.after
      have := bypassed.before
      omega
    subst isCall
    exact absurd ⟨_, _, rfl, rfl, rfl⟩ bypassed.apart
  · exact ⟨by decide, ⟨_, _, rfl, rfl, rfl⟩, Or.inl ⟨_, rfl, rfl⟩⟩

/-! ## Stores at two constants and an unknown index -/

namespace ScatteredStores

def array : Box := ⟨0, .ref⟩

def index : Box := ⟨1, .int⟩

def item : Box := ⟨2, .int⟩

def boxes : List Value := [.box array, .box index, .box item]

def store (position : Value) : Operation :=
  { opcode := .setArrayItemRaw, args := [.box array, position, .box item],
    descriptor := some (.array (.ints 1 8)) }

def ops : List Operation :=
  [{ opcode := .label, args := boxes }, store (.int 0), store (.int 1), store (.box index),
    { opcode := .jump, args := boxes }]

/-- Where a store at an index writes. -/
def place (index : IndexVar) : MemoryRef := ⟨.box array, .ints 1 8, index, false⟩

/-- The label defines the boxes. -/
def definitions : Std.HashMap Box Nat :=
  ((Std.HashMap.insert ∅ array 0).insert index 0).insert item 0

def start : GraphBuilder :=
  { graph := DependencyGraph.unlinked ops, definitions := definitions }

def first : GraphBuilder :=
  start.withAccess 1 (store (.int 0)) [0, 0] [] (place (.ofWord 0))

def second : GraphBuilder :=
  first.withAccess 2 (store (.int 1)) [0, 0] [] (place (.ofWord 1))

/-- The last store is linked to the second one, and not to the first. -/
def third : GraphBuilder :=
  second.withAccess 3 (store (.box index)) [0, 0, 0] [2] (place (.ofBox index))

def last : GraphBuilder := third.linkAll [0, 0, 0] 4 .data

def graph : DependencyGraph := last.graph.closeEnd.closeStart

theorem memory_index : MemoryRef.ofOperation? (.ofOperations ops) (store (.box index)) =
      some (place (.ofBox index)) := by
  cbv

theorem built : DependencyGraph.ofOperations ops = .ok graph := by
  cbv

end ScatteredStores

open ScatteredStores in
/-- The stores at the first constant and at the unknown index may touch the same item, but no
path leads from the one to the other. -/
theorem not_reaches_of_scatteredStores :
    DependencyGraph.ofOperations ScatteredStores.ops = .ok ScatteredStores.graph ∧
      MayConflict ScatteredStores.ops 1 3 ∧ ¬ ScatteredStores.graph.Reaches 1 3 := by
  refine ⟨built, ⟨by decide, ?_, Or.inl ⟨_, rfl, rfl⟩⟩, ?_⟩
  · refine ⟨⟨1, true, some (place (.ofWord 0))⟩, ⟨3, true, some (place (.ofBox index))⟩, rfl, ?_,
      rfl⟩
    exact congrArg (fun memory => some (Access.mk 3 true memory)) memory_index
  · -- From the first store an edge leads to the jump only, and none leads on from there.
    have toJump : (ScatteredStores.graph.node 1).provides = [⟨4, .jump⟩] := by decide +kernel
    have fromJump : (ScatteredStores.graph.node 4).provides = [] := by decide +kernel
    intro reached
    obtain ⟨target, edge, rest⟩ := Relation.TransGen.head'_iff.mp reached
    simp only [DependencyGraph.hasEdge, toJump, List.any_cons, List.any_nil, Bool.or_false,
      beq_iff_eq] at edge
    subst edge
    rcases Relation.ReflTransGen.cases_head rest with same | ⟨next, onward, _⟩
    · cases same
    · simp [DependencyGraph.hasEdge, fromJump] at onward

end LinearTrace