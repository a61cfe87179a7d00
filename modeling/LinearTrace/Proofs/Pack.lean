import Mathlib.Data.List.Chain
import LinearTrace.Pack.Combine
import LinearTrace.Pack.Grow
import LinearTrace.Proofs.Dependency
import LinearTrace.Proofs.Dependency.Reach

/-!
# Pairs and packs

A pack set starts as a set of pairs, grows by pairs, and is combined at the end:
packs that meet are joined.  So a condition that every pair satisfies when it is
added holds between any two neighbouring lanes of every pack.
-/

namespace LinearTrace

open List PackSet

variable {fuel index first second : Nat} {pack : Pack} {joined : PackSet} {packs : List Pack}

namespace PackSet

variable {graph : DependencyGraph} {target : Target} {set : PackSet}
  {condition : Nat → Nat → Prop}

variable {left right : Pack}

/-- The set holds the pair of two nodes. -/
def HasPair (set : PackSet) (left right : Nat) : Prop :=
  ∃ pack ∈ set.packs, pack.members = [left, right]

/-- Every pack is a pair that satisfies a condition. -/
def Pairs (set : PackSet) (condition : Nat → Nat → Prop) : Prop :=
  ∀ pack ∈ set.packs, ∃ left right, pack.members = [left, right] ∧ condition left right

/-! ## Growing -/

def Every (set : PackSet) (condition : Pack → Prop) : Prop :=
  ∀ pack ∈ set.packs, condition pack

theorem pairs_empty : ({} : PackSet).Pairs condition :=
  fun _ member => nomatch member

theorem Pairs.of_hasPair (pairs : set.Pairs condition) {left right : Nat}
    (hasPair : set.HasPair left right) : condition left right := by
  obtain ⟨pack, member, isPair⟩ := hasPair
  obtain ⟨_, _, same, holds⟩ := pairs pack member
  cases isPair.symm.trans same
  exact holds

theorem growFrom_of_none (found : set.packs[index]? = none) :
    growFrom graph target fuel index set = set := by
  cases fuel with
  | zero => rfl
  | succ fuel => rw [growFrom, found]

section

variable {condition : Pack → Prop}

theorem Every.addPair (every : set.Every condition) {left right : Nat}
    (holds : condition { Pack.pair left right with laneType := laneTypeAt graph left }) :
    (set.addPair graph left right).Every condition := by
  intro pack member
  rcases mem_append.mp member with isOld | isNew
  · exact every pack isOld
  · cases mem_singleton.mp isNew
    exact holds

theorem Every.seed (every : set.Every condition)
    (adds : ∀ set left right, accessesNext graph left right → canPack set graph target left right →
        condition { Pack.pair left right with laneType := laneTypeAt graph left }) :
    (set.seed graph target).Every condition := by
  unfold PackSet.seed
  induction orderedPairs graph.memoryNodes generalizing set with
  | nil => exact every
  | cons candidate rest ih =>
    obtain ⟨left, right⟩ := candidate
    rw [foldl_cons]
    apply ih
    dsimp only
    split
    next isAdded =>
      rw [Bool.and_eq_true] at isAdded
      exact every.addPair (adds set _ _ isAdded.1 isAdded.2)
    · exact every

variable (adds : ∀ set left right, left < right → canPack set graph target left right →
  condition { Pack.pair left right with laneType := laneTypeAt graph left })

include adds

theorem condition_of_shouldPack {candidate : Nat × Nat}
    (should : set.shouldPack graph target pack candidate) :
    condition { Pack.pair candidate.1 candidate.2 with
      laneType := laneTypeAt graph candidate.1 } := by
  unfold shouldPack at should
  rw [Bool.and_eq_true, Bool.and_eq_true] at should
  exact adds set _ _ (of_decide_eq_true should.1.1) should.1.2

section

variable (every : set.Every condition)

include every

theorem Every.followOperands (pack : Pack) :
    (set.followOperands graph target pack).Every condition := by
  unfold PackSet.followOperands
  induction operandCandidates graph pack generalizing set with
  | nil => exact every
  | cons candidate rest ih =>
    rw [foldl_cons]
    apply ih
    split
    next should => exact every.addPair (condition_of_shouldPack adds should)
    · exact every

theorem Every.followUsers (pack : Pack) : (set.followUsers graph target pack).Every condition := by
  unfold PackSet.followUsers
  split
  next found => exact every.addPair (condition_of_shouldPack adds (find?_some found))
  · exact every

theorem Every.growFrom (fuel index : Nat) :
    (growFrom graph target fuel index set).Every condition := by
  induction fuel generalizing index set with
  | zero => exact every
  | succ fuel ih =>
    cases found : set.packs[index]? with
    | none =>
      rw [growFrom_of_none found]
      exact every
    | some pack =>
      rw [PackSet.growFrom, found]
      apply ih
      unfold growAt
      split
      · exact (every.followOperands adds pack).followUsers adds pack
      · exact every

/-- Whatever a pair satisfies when it is added, all packs of a grown set satisfy. -/
theorem Every.grow : (set.grow graph target).Every condition := by
  unfold PackSet.grow
  generalize graph.size + 1 = fuel
  induction fuel generalizing set with
  | zero => exact every
  | succ fuel ih =>
    unfold growRounds
    have round := every.growFrom adds (set.packs.length + graph.size) 0
    dsimp only
    split
    · exact round
    · exact ih round

end

end

theorem Pairs.seed (pairs : set.Pairs condition)
    (adds : ∀ set left right, accessesNext graph left right →
      canPack set graph target left right → condition left right) :
    (set.seed graph target).Pairs condition :=
  Every.seed pairs fun set left right next able =>
    ⟨left, right, rfl, adds set left right next able⟩

theorem Pairs.grow (pairs : set.Pairs condition)
    (adds : ∀ set left right, canPack set graph target left right → condition left right) :
    (set.grow graph target).Pairs condition :=
  Every.grow (fun set left right _ able => ⟨left, right, rfl, adds set left right able⟩) pairs

/-! ## Combining -/

/-- Neighbouring lanes of every pack satisfy a condition. -/
def Chained (set : PackSet) (condition : Nat → Nat → Prop) : Prop :=
  ∀ pack ∈ set.packs, pack.members.IsChain condition

theorem Pairs.chained (pairs : set.Pairs condition) : set.Chained condition := by
  intro pack member
  obtain ⟨left, right, isPair, holds⟩ := pairs pack member
  rw [isPair]
  exact isChain_pair.mpr holds

theorem isChain_append (meets : left.meets right)
    (leftChain : left.members.IsChain condition) (rightChain : right.members.IsChain condition) :
    (left.append right).members.IsChain condition := by
  have last : left.members.getLast? = some left.last := by
    unfold Pack.members Pack.last
    rw [getLast?_cons, getLastD_eq_getLast?]
  change (left.members ++ right.rest).IsChain condition
  rw [List.isChain_append]
  obtain ⟨next, restChain⟩ := isChain_cons.mp rightChain
  refine ⟨leftChain, restChain, ?_⟩
  intro first isLast second isNext
  rw [last] at isLast
  cases isLast
  rw [show left.last = right.first from eq_of_beq meets]
  exact next second isNext

theorem meets_of_canJoin (able : canJoin graph left right = .ok true) : left.meets right := by
  unfold canJoin at able
  split at able
  next fits =>
    rw [Bool.and_eq_true] at fits
    exact fits.1
  · cases able

theorem findM?_eq_some {α : Type} {test : α → Except Fault Bool} {items : List α} {item : α}
    (found : items.findM? test = .ok (some item)) : item ∈ items ∧ test item = .ok true := by
  induction items with
  | nil => cases found
  | cons first rest ih =>
    rw [findM?] at found
    obtain ⟨verdict, tested, found⟩ := Fault.bind_eq_ok.mp found
    cases verdict with
    | true =>
      cases found
      exact ⟨mem_cons_self, tested⟩
    | false =>
      obtain ⟨member, passes⟩ := ih found
      exact ⟨mem_cons_of_mem _ member, passes⟩

theorem findJoin_eq_some (found : set.findJoin graph = .ok (some (first, second))) :
    ∃ left right, set.packs[first]? = some left ∧ set.packs[second]? = some right ∧
      first ≠ second ∧ canJoin graph left right = .ok true := by
  obtain ⟨joined, searched, found⟩ := Fault.bind_eq_ok.mp found
  obtain ⟨⟨⟨left, leftIndex⟩, right, rightIndex⟩, isJoined, isPair⟩ :=
    Option.map_eq_some_iff.mp (Except.ok.inj found)
  cases isPair
  rw [isJoined] at searched
  obtain ⟨member, able⟩ := findM?_eq_some searched
  obtain ⟨_, isLeft, member⟩ := mem_flatMap.mp member
  obtain ⟨_, isRight, isPair⟩ := List.mem_map.mp member
  cases isPair
  obtain ⟨isRight, apart⟩ := mem_filter.mp isRight
  exact ⟨left, right, mem_zipIdx_iff_getElem?.mp isLeft,
    mem_zipIdx_iff_getElem?.mp isRight, bne_iff_ne.mp apart, able⟩

theorem mem_of_mem_removeBySwap {position : Nat} (member : pack ∈ removeBySwap packs position) :
    pack ∈ packs := by
  unfold removeBySwap at member
  split at member
  next last isLast =>
    rcases mem_or_eq_of_mem_set ((dropLast_subset _) member) with isOld | rfl
    · exact isOld
    · exact mem_of_getLast? isLast
  · cases member

theorem joinAt_ne_nil (isLeft : packs[first]? = some left) (isRight : packs[second]? = some right)
    (apart : first ≠ second) : joinAt packs first second ≠ [] := by
  obtain ⟨leftInside, _⟩ := List.getElem?_eq_some_iff.mp isLeft
  obtain ⟨rightInside, _⟩ := List.getElem?_eq_some_iff.mp isRight
  have length : (removeBySwap packs second).length = packs.length - 1 := by
    unfold removeBySwap
    split
    · rw [length_dropLast, length_set]
    next none =>
      rw [getLast?_eq_none_iff.mp none]
      rfl
  unfold joinAt
  rw [isLeft, isRight]
  apply ne_nil_of_length_pos
  rw [length_set, length]
  omega

theorem joinAll_ne_nil (nonempty : set.packs ≠ []) {fuel : Nat} {joined : PackSet}
    (isJoined : joinAll graph fuel set = .ok joined) : joined.packs ≠ [] := by
  induction fuel generalizing set with
  | zero =>
    cases isJoined
    exact nonempty
  | succ fuel ih =>
    obtain ⟨found, searched, isJoined⟩ := Fault.bind_eq_ok.mp isJoined
    cases found with
    | none =>
      cases isJoined
      exact nonempty
    | some positions =>
      obtain ⟨left, right, isLeft, isRight, apart, _⟩ := findJoin_eq_some searched
      exact ih (joinAt_ne_nil isLeft isRight apart) isJoined

theorem makeDisjoint_ne_nil (nonempty : set.packs ≠ []) : set.makeDisjoint.packs ≠ [] := by
  obtain ⟨first, rest, isCons⟩ := exists_cons_of_ne_nil nonempty
  have free : ¬ first.members.any ([] : List Nat).contains = true := by simp
  unfold makeDisjoint
  rw [isCons, disjointFrom, if_neg free]
  exact cons_ne_nil _ _

theorem Every.joinAll {condition : Pack → Prop} (every : set.Every condition)
    (joins : ∀ left right, canJoin graph left right = .ok true → condition left →
      condition right → condition (left.append right))
    (isJoined : joinAll graph fuel set = .ok joined) : joined.Every condition := by
  induction fuel generalizing set with
  | zero =>
    cases isJoined
    exact every
  | succ fuel ih =>
    obtain ⟨found, searched, isJoined⟩ := Fault.bind_eq_ok.mp isJoined
    cases found with
    | none =>
      cases isJoined
      exact every
    | some positions =>
      obtain ⟨left, right, isLeft, isRight, _, able⟩ := findJoin_eq_some searched
      refine ih (fun pack member => ?_) isJoined
      unfold joinAt at member
      rw [isLeft, isRight] at member
      rcases mem_or_eq_of_mem_set member with isOld | rfl
      · exact every pack (mem_of_mem_removeBySwap isOld)
      · exact joins left right able (every left (mem_of_getElem? isLeft))
          (every right (mem_of_getElem? isRight))

theorem mem_of_mem_disjointFrom {claimed : List Nat} (member : pack ∈ disjointFrom claimed packs) :
    pack ∈ packs := by
  induction packs generalizing claimed with
  | nil => cases member
  | cons first rest ih =>
    unfold disjointFrom at member
    split at member
    · exact mem_cons_of_mem _ (ih member)
    · rcases mem_cons.mp member with rfl | isLater
      · exact mem_cons_self
      · exact mem_cons_of_mem _ (ih isLater)

end PackSet

namespace Packing

variable {packing final : Packing} {condition : Nat → Nat → Prop}

theorem combine_eq (packing : Packing) : combine packing =
      if packing.packs.packs.isEmpty = true then .error (.rejection .noPacks) packing
      else
        match packing.join with
        | .error fault => .error fault packing
        | .ok next =>
          match next.packs.isSchedulable next.graph with
          | .error fault => .error fault next
          | .ok true => .ok () next
          | .ok false => .error (.rejection .cyclicPacks) next := by
  change (if packing.packs.packs.isEmpty = true then _ else _ : Work Packing Unit) packing = _
  by_cases isEmpty : packing.packs.packs.isEmpty = true
  · rw [if_pos isEmpty, if_pos isEmpty]
    rfl
  rw [if_neg isEmpty, if_neg isEmpty]
  cases packing.join with
  | error fault => rfl
  | ok next =>
    change (do unless ← next.packs.isSchedulable next.graph do Work.reject .cyclicPacks :
      Work Packing Unit) next = _
    dsimp only
    cases next.packs.isSchedulable next.graph with
    | error fault => rfl
    | ok verdict => cases verdict <;> rfl

theorem combine_eq_ok (combined : combine packing = .ok () final) :
    packing.packs.packs ≠ [] ∧ packing.join = .ok final ∧
      final.packs.isSchedulable final.graph = .ok true := by
  rw [combine_eq] at combined
  split at combined
  · cases combined
  next nonempty =>
    split at combined
    · cases combined
    next joined =>
      split at combined
      · cases combined
      next sorted =>
        cases combined
        exact ⟨fun isEmpty => nonempty (isEmpty_iff.mpr isEmpty), joined, sorted⟩
      · cases combined

theorem join_of_combine (combined : combine packing = .ok () final) : packing.join = .ok final :=
  (combine_eq_ok combined).2.1

/-- What joining keeps holds of all packs after they have been combined. -/
theorem every_of_join {condition : Pack → Prop} (every : packing.packs.Every condition)
    (joins : ∀ left right, canJoin packing.graph left right = .ok true → condition left →
      condition right → condition (left.append right))
    (joined : packing.join = .ok final) : final.packs.Every condition := by
  obtain ⟨longer, isJoined, rest⟩ := Fault.bind_eq_ok.mp joined
  have isFinal : final.packs = longer.makeDisjoint := by
    dsimp only at rest
    split at rest
    · cases rest
      rfl
    · cases rest
  intro pack member
  rw [isFinal] at member
  exact every.joinAll joins isJoined pack (mem_of_mem_disjointFrom member)

theorem packs_ne_nil_of_combine (combined : combine packing = .ok () final) :
    final.packs.packs ≠ [] := by
  obtain ⟨nonempty, joined, _⟩ := combine_eq_ok combined
  obtain ⟨longer, isJoined, rest⟩ := Fault.bind_eq_ok.mp joined
  dsimp only at rest
  split at rest
  · cases rest
    exact makeDisjoint_ne_nil (joinAll_ne_nil nonempty isJoined)
  · cases rest

/-- What holds between neighbouring lanes before packs are combined holds afterwards. -/
theorem chained_of_combine (chained : packing.packs.Chained condition)
    (combined : combine packing = .ok () final) : final.packs.Chained condition :=
  every_of_join chained (fun _ _ able => isChain_append (meets_of_canJoin able))
    (join_of_combine combined)

end Packing

end LinearTrace
