import Mathlib
import LinearTrace.Lowering.Signature
import LinearTrace.Proofs.Dependency.Build
import LinearTrace.Proofs.Pack
import LinearTrace.Proofs.Word

/-!
# What the first lane says about the others

A vector operation takes its scalar operands from the first lane of the part of a
pack that it stands for.  That is right for accesses to memory when each lane
touches the item after the one before it, and for other operations when the lanes
agree on those operands.  Seeded pairs are neighbouring accesses.  Pairs that are
found by growing need not be, so whether a pack is described by its lanes is a
question about those pairs alone.
-/

namespace LinearTrace

open List MemoryRef

/-! ## Items in a row -/

namespace MemoryRef

variable {first second third : MemoryRef}

/-- The second reference touches the item that comes a number of items after the first one's. -/
def IsAfter (first second : MemoryRef) (count : Nat) : Prop :=
  first.sameLine second = true ∧
    second.index.offset.toInt = first.index.offset.toInt + count * first.stride.toInt

theorem sameLine_iff : first.sameLine second = true ↔
      first.array = second.array ∧ first.descriptor = second.descriptor ∧
        first.index.base = second.index.base ∧ first.index.multiplier = second.index.multiplier ∧
            first.index.divisor = second.index.divisor := by
  simp [sameLine, sameArray, IndexVar.sameBase, IndexVar.sameFactor, and_assoc]

theorem isAdjacentAfter_iff : first.isAdjacentAfter second = true ↔ first.IsAfter second 1 := by
  unfold isAdjacentAfter IsAfter
  rw [Bool.and_eq_true, beq_iff_eq]
  refine and_congr_right fun _ => ?_
  constructor
  · intro distance
    have value := Word.toInt_of_sub? distance
    omega
  · intro offset
    have distance : second.index.offset.toInt - first.index.offset.toInt = first.stride.toInt := by
      omega
    rw [IndexVar.distance?, Word.sub?, distance, Word.ofInt?_toInt]

theorem IsAfter.trans {count further : Nat} (left : first.IsAfter second count)
    (right : second.IsAfter third further) (stride : first.stride = second.stride) :
    first.IsAfter third (count + further) := by
  obtain ⟨leftLine, leftOffset⟩ := left
  obtain ⟨rightLine, rightOffset⟩ := right
  rw [sameLine_iff] at leftLine rightLine
  refine ⟨sameLine_iff.mpr ⟨leftLine.1.trans rightLine.1, leftLine.2.1.trans rightLine.2.1,
    leftLine.2.2.1.trans rightLine.2.2.1, leftLine.2.2.2.1.trans rightLine.2.2.2.1,
    leftLine.2.2.2.2.trans rightLine.2.2.2.2⟩, ?_⟩
  rw [rightOffset, leftOffset, stride]
  rw [Int.natCast_add, Int.add_mul, Int.add_assoc]

theorem ofOperation?_eq_some {table : IndexTable} {op : Operation} {memory : MemoryRef}
    (found : ofOperation? table op = some memory) :
    op.opcode.isArrayAccess ∧ memory.byteIndexed = op.opcode.traits.byteIndexed := by
  unfold ofOperation? at found
  split at found
  · obtain ⟨_, isAccess, found⟩ := Option.bind_eq_some_iff.mp found
    obtain ⟨descriptor, _, found⟩ := Option.bind_eq_some_iff.mp found
    obtain ⟨index, _, found⟩ := Option.bind_eq_some_iff.mp found
    cases found
    refine ⟨?_, rfl⟩
    by_contra noAccess
    rw [guard, if_neg noAccess] at isAccess
    cases isAccess
  · cases found

end MemoryRef

/-! ## Lanes -/

/-- A vector operation for the code takes the operand at a position from its first lane. -/
def Target.KeepsScalar (target : Target) (opcode : Opcode) (position : Nat) : Prop :=
  ∃ vector signature, target.vectorForm? opcode = some vector ∧
    vector.vectorSignature? = some signature ∧ signature.operandAt position = none

/-- A vector operation with the scalar operands of the first node does what the second node does
when that is a number of lanes further on. -/
def DependencyGraph.Covers (graph : DependencyGraph) (target : Target) (left right count : Nat) :
    Prop :=
  if (graph.op left).opcode.isArrayAccess = true then
    ∃ first second, (graph.node left).memory = some first ∧
      (graph.node right).memory = some second ∧ first.IsAfter second count
  else
    ∀ position, target.KeepsScalar (graph.op left).opcode position →
      (graph.op right).args[position]? = (graph.op left).args[position]?

/-- Every part of the pack is described by the first of its lanes. -/
def Pack.IsDescribed (pack : Pack) (graph : DependencyGraph) (target : Target) : Prop :=
  ∀ lane count left right, pack.members[lane]? = some left →
    pack.members[lane + (count + 1)]? = some right → graph.Covers target left right (count + 1)

/-- The two nodes are neighbouring lanes of a pack. -/
def PackSet.HasNeighbours (set : PackSet) (left right : Nat) : Prop :=
  ∃ pack ∈ set.packs, ∃ lane, pack.members[lane]? = some left ∧
    pack.members[lane + 1]? = some right

/-- The pairs of neighbouring accesses. -/
def PackSet.seeds (graph : DependencyGraph) (target : Target) : PackSet :=
  PackSet.seed {} graph target

/-- All pairs that are found in a graph. -/
def PackSet.found (graph : DependencyGraph) (target : Target) : PackSet :=
  (PackSet.seeds graph target).grow graph target

section

variable {ops : List Operation} {graph : DependencyGraph} {target : Target}
  {left middle right count further : Nat}

section

variable (built : DependencyGraph.ofOperations ops = .ok graph)

include built

theorem DependencyGraph.Covers.trans
    (sameOpcode : (graph.op left).opcode = (graph.op middle).opcode)
    (first : graph.Covers target left middle count)
    (second : graph.Covers target middle right further) :
    graph.Covers target left right (count + further) := by
  unfold Covers at *
  rw [← sameOpcode] at second
  split
  next isAccess =>
    rw [if_pos isAccess] at first second
    obtain ⟨near, between, isNear, isBetween, firstRow⟩ := first
    obtain ⟨_, far, isBetween', isFar, secondRow⟩ := second
    cases isBetween.symm.trans isBetween'
    -- One code counts its index in one way, so that the strides agree.
    have stride : near.stride = between.stride := by
      have nearCode := (ofOperation?_eq_some (memory_of_ofOperations built isNear)).2
      have betweenCode :=
        (ofOperation?_eq_some (memory_of_ofOperations built isBetween)).2
      unfold stride
      rw [nearCode, betweenCode, sameOpcode, (sameLine_iff.mp firstRow.1).2.1]
    exact ⟨near, far, isNear, isFar, firstRow.trans secondRow stride⟩
  next noAccess =>
    rw [if_neg noAccess] at first second
    intro position keeps
    exact (second position keeps).trans (first position keeps)

theorem Pack.isDescribed_of_isChain {pack : Pack} (chain : pack.members.IsChain fun left right =>
      (graph.op left).opcode = (graph.op right).opcode ∧ graph.Covers target left right 1) :
    pack.IsDescribed graph target := by
  have steps : ∀ lane left right, pack.members[lane]? = some left →
      pack.members[lane + 1]? = some right →
      (graph.op left).opcode = (graph.op right).opcode ∧ graph.Covers target left right 1 := by
    intro lane left right isLeft isRight
    obtain ⟨inside, rfl⟩ := List.getElem?_eq_some_iff.mp isRight
    obtain ⟨_, rfl⟩ := List.getElem?_eq_some_iff.mp isLeft
    exact isChain_iff_getElem.mp chain lane inside
  intro lane count left right isLeft isRight
  suffices both : (graph.op left).opcode = (graph.op right).opcode ∧
      graph.Covers target left right (count + 1) from both.2
  induction count generalizing right with
  | zero => exact steps lane left right isLeft isRight
  | succ count ih =>
    obtain ⟨inside, _⟩ := List.getElem?_eq_some_iff.mp isRight
    obtain ⟨middle, isMiddle⟩ : ∃ middle, pack.members[lane + (count + 1)]? = some middle :=
      ⟨_, getElem?_eq_getElem (by omega)⟩
    obtain ⟨sameOpcode, covers⟩ := ih middle isMiddle
    obtain ⟨nextOpcode, nextCovers⟩ := steps (lane + (count + 1)) middle right isMiddle isRight
    exact ⟨sameOpcode.trans nextOpcode, covers.trans built sameOpcode nextCovers⟩

theorem DependencyGraph.covers_of_accessesNext
    (next : PackSet.accessesNext graph left right) : graph.Covers target left right 1 := by
  unfold PackSet.accessesNext at next
  split at next
  next first second isFirst isSecond =>
    rw [Bool.and_eq_true] at next
    have isAccess := (ofOperation?_eq_some (memory_of_ofOperations built isFirst)).1
    unfold Covers
    rw [if_pos isAccess]
    exact ⟨first, second, isFirst, isSecond, isAdjacentAfter_iff.mp next.2⟩
  · cases next

end

theorem PackSet.pairs_seeds (graph : DependencyGraph) (target : Target) :
    (seeds graph target).Pairs fun left right => accessesNext graph left right = true :=
  pairs_empty.seed fun _ _ _ next _ => next

theorem PackSet.pairs_found (graph : DependencyGraph) (target : Target) :
    (found graph target).Pairs fun left right =>
      (graph.op left).opcode = (graph.op right).opcode := by
  have sameOpcode : ∀ set left right, canPack set graph target left right = true →
      (graph.op left).opcode = (graph.op right).opcode := by
    intro set left right able
    unfold canPack isomorphic at able
    simp only [Bool.and_eq_true, beq_iff_eq] at able
    exact able.1.1.1.1.1
  exact (pairs_empty.seed fun set left right _ => sameOpcode set left right).grow sameOpcode

/-- All packs are described by their lanes just when each lane describes the next in the pairs
that growing has added. -/
theorem isDescribed_of_combine_iff (built : DependencyGraph.ofOperations ops = .ok graph)
    (target : Target) {final : Packing}
    (combined : Packing.combine ⟨graph, PackSet.found graph target⟩ = .ok () final) :
    (∀ pack ∈ final.packs.packs, pack.IsDescribed graph target) ↔
      ∀ left right, (PackSet.found graph target).HasPair left right →
        ¬ (PackSet.seeds graph target).HasPair left right →
          final.packs.HasNeighbours left right → graph.Covers target left right 1 := by
  have pairs := PackSet.pairs_found graph target
  have chained : final.packs.Chained (PackSet.found graph target).HasPair := by
    refine Packing.chained_of_combine ?_ combined
    refine PackSet.Pairs.chained fun pack member => ?_
    obtain ⟨left, right, isPair, _⟩ := pairs pack member
    exact ⟨left, right, isPair, pack, member, isPair⟩
  constructor
  · rintro described left right _ _ ⟨pack, member, lane, isLeft, isRight⟩
    exact described pack member lane 0 left right isLeft isRight
  · intro covers pack member
    apply Pack.isDescribed_of_isChain built
    rw [List.isChain_iff_getElem]
    intro lane inside
    have hasPair := List.isChain_iff_getElem.mp (chained pack member) lane inside
    refine ⟨pairs.of_hasPair hasPair, ?_⟩
    by_cases seeded : (PackSet.seeds graph target).HasPair pack.members[lane] pack.members[lane + 1]
    · have next := (PackSet.pairs_seeds graph target).of_hasPair seeded
      exact DependencyGraph.covers_of_accessesNext built next
    · exact covers _ _ hasPair seeded ⟨pack, member, lane, List.getElem?_eq_getElem _,
        List.getElem?_eq_getElem _⟩

end

/-! ## Loads that are not neighbours, stored side by side -/

namespace SpreadLoads

def load (word : Int64) (result : Nat) : Operation :=
  { opcode := .getArrayItemRaw, args := [.const (.ref 4096), .int word],
    result := some ⟨result, .int⟩, descriptor := some (.array (.ints 1 8)) }

def store (word : Int64) (item : Nat) : Operation :=
  { opcode := .setArrayItemRaw, args := [.const (.ref 8192), .int word, .box ⟨item, .int⟩],
    descriptor := some (.array (.ints 2 8)) }

def ops : List Operation :=
  [{ opcode := .label, args := [] }, load 0 0, load 2 1, store 0 0, store 1 1,
    { opcode := .jump, args := [] }]

def loaded (word : Int64) : MemoryRef := ⟨.const (.ref 4096), .ints 1 8, .ofWord word, false⟩

def stored (word : Int64) : MemoryRef := ⟨.const (.ref 8192), .ints 2 8, .ofWord word, false⟩

def start : GraphBuilder := { graph := DependencyGraph.unlinked ops }

def first : GraphBuilder := start.withAccess 1 (load 0 0) [] [] (loaded 0)

def second : GraphBuilder := first.withAccess 2 (load 2 1) [] [] (loaded 2)

def third : GraphBuilder := second.withAccess 3 (store 0 0) [1] [] (stored 0)

def fourth : GraphBuilder := third.withAccess 4 (store 1 1) [2] [] (stored 1)

def graph : DependencyGraph := fourth.graph.closeEnd.closeStart

theorem built : DependencyGraph.ofOperations ops = .ok graph := by
  cbv

def pairOfStores : Pack := { Pack.pair 3 4 with laneType := some ⟨some .int, 8, true⟩ }

def pairOfLoads : Pack := { Pack.pair 1 2 with laneType := some ⟨some .int, 8, true⟩ }

def both : PackSet := ⟨[pairOfStores, pairOfLoads]⟩

theorem not_covers : ¬ graph.Covers .sse 1 2 1 := by
  have first : (graph.node 1).memory = some (loaded 0) := by decide +kernel
  have second : (graph.node 2).memory = some (loaded 2) := by decide +kernel
  have isAccess : (graph.op 1).opcode.isArrayAccess = true := by decide +kernel
  unfold DependencyGraph.Covers
  rw [if_pos isAccess]
  rintro ⟨_, _, isFirst, isSecond, _, offset⟩
  cases first.symm.trans isFirst
  cases second.symm.trans isSecond
  revert offset
  decide

theorem combines :
    Packing.combine ⟨graph, PackSet.found graph .sse⟩ = .ok () ⟨both.assign graph, both⟩ := by
  cbv

end SpreadLoads

open SpreadLoads in
/-- Growing has added a pair whose first lane does not describe the second. -/
theorem exists_uncovered_of_spreadLoads :
    ∃ left right, (PackSet.found SpreadLoads.graph .sse).HasPair left right ∧
      ¬ (PackSet.seeds SpreadLoads.graph .sse).HasPair left right ∧
      both.HasNeighbours left right ∧ ¬ SpreadLoads.graph.Covers .sse left right 1 := by
  by_contra none
  have described := (isDescribed_of_combine_iff built .sse combines).mpr
    fun left right hasPair added neighbours => by
      by_contra uncovered
      exact none ⟨left, right, hasPair, added, neighbours, uncovered⟩
  exact not_covers (described pairOfLoads (by decide) 0 0 1 2 rfl rfl)

open SpreadLoads in
/-- The loads of two items that are not neighbours become a pack, which its first lane does not
describe. -/
theorem not_isDescribed_of_spreadLoads :
    DependencyGraph.ofOperations SpreadLoads.ops = .ok SpreadLoads.graph ∧
      Packing.combine ⟨SpreadLoads.graph, PackSet.found SpreadLoads.graph .sse⟩ =
        .ok () ⟨both.assign SpreadLoads.graph, both⟩ ∧
      pairOfLoads ∈ both.packs ∧ ¬ pairOfLoads.IsDescribed SpreadLoads.graph .sse :=
  ⟨built, combines, by decide, fun described => not_covers (described 0 0 1 2 rfl rfl)⟩

end LinearTrace
