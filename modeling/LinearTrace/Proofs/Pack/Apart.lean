import Mathlib.Data.Fintype.Card
import Mathlib.Data.Fintype.EquivFin
import Mathlib.Data.List.Pairwise
import Mathlib.Order.WellFounded
import LinearTrace.Proofs.Dependency.Stable
import LinearTrace.Proofs.Pack

/-!
# Packs without dependencies

Pairs are only added when neither node depends on the other, and packs are only
joined when no member of the one depends on a new member of the other.  So no edge
runs inside a pack, however seeding, growing and combining alternate.  Combining
also leaves disjoint packs, which the graph records, and a graph whose groups do
not lead back to themselves.
-/

namespace LinearTrace

open List DependencyGraph PackSet Fault

variable {source node : Nat} {pack : Pack}

namespace DependencyGraph

variable {graph before after : DependencyGraph} {left right : Nat}

theorem SameEdges.independent (same : before.SameEdges after) (left right : Nat) :
    after.independent left right = before.independent left right := by
  have successors : after.successors = before.successors := funext same.successors
  unfold DependencyGraph.independent hasPath reachable visitFrom
  rw [successors, same.size]

theorem lt_size_of_hasEdge (edge : graph.hasEdge left right) : left < graph.size :=
  graph.lt_size_of_mem_successors (hasEdge_iff.mp edge)

theorem Reaches.inside (path : graph.Reaches left right) (isNode : right < graph.size) :
    left < graph.size ∧ Relation.ReflTransGen
      (fun node other => other ∈ graph.successors node ∧ other < graph.size) left right := by
  induction path with
  | single edge => exact ⟨lt_size_of_hasEdge edge, .single ⟨hasEdge_iff.mp edge, isNode⟩⟩
  | tail _ edge ih =>
    obtain ⟨isStart, steps⟩ := ih (lt_size_of_hasEdge edge)
    exact ⟨isStart, steps.tail ⟨hasEdge_iff.mp edge, isNode⟩⟩

theorem hasPath_of_reaches (path : graph.Reaches left right) (isNode : right < graph.size) :
    graph.hasPath left right := by
  obtain ⟨isStart, steps⟩ := path.inside isNode
  have visited : right ∈ graph.reachable left :=
    Search.mem_visit_of_path mem_cons_self isStart steps
  unfold hasPath
  rw [Bool.or_eq_true]
  exact .inr (contains_iff_mem.mpr visited)

theorem not_reaches_of_independent (apart : graph.independent left right)
    (isNode : right < graph.size) : ¬ graph.Reaches left right := by
  intro path
  unfold independent at apart
  rw [hasPath_of_reaches path isNode, Bool.not_true, Bool.and_false, Bool.false_and] at apart
  cases apart

theorem independent_comm (graph : DependencyGraph) (left right : Nat) :
    graph.independent left right = graph.independent right left := by
  unfold independent
  rw [bne_comm, Bool.and_assoc, Bool.and_assoc, Bool.and_comm (!graph.hasPath left right)]

theorem ne_of_independent (apart : graph.independent left right) : left ≠ right := by
  unfold independent at apart
  simp only [Bool.and_eq_true, bne_iff_ne] at apart
  exact apart.1.1

theorem hasPathChecked_eq {verdict : Bool} {target : Nat}
    (checked : graph.hasPathChecked source target = .ok verdict) :
    graph.hasPath source target = verdict := by
  unfold hasPathChecked at checked
  split at checked
  next same =>
    cases checked
    simp [hasPath, same]
  · obtain ⟨_, _, checked⟩ := bind_eq_ok.mp checked
    exact Except.ok.inj checked

theorem independent_of_independentChecked (checked : graph.independentChecked left right = .ok true)
    : graph.independent left right := by
  unfold independentChecked at checked
  split at checked
  · cases checked
  rename_i apart
  obtain ⟨forward, isForward, checked⟩ := bind_eq_ok.mp checked
  cases forward with
  | true => cases checked
  | false =>
    obtain ⟨backward, isBackward, checked⟩ := bind_eq_ok.mp checked
    cases backward with
    | true => cases checked
    | false =>
      unfold independent
      rw [hasPathChecked_eq isForward, hasPathChecked_eq isBackward]
      simpa using apart

end DependencyGraph

/-! ## Members -/

/-- No member of the pack depends on another. -/
def Pack.IsApart (graph : DependencyGraph) (pack : Pack) : Prop :=
  pack.members.Pairwise fun left right => graph.independent left right = true

theorem Pack.isApart_iff {before after : DependencyGraph} (same : before.SameEdges after) :
    pack.IsApart after ↔ pack.IsApart before := by
  unfold Pack.IsApart
  simp only [same.independent]

theorem Pack.IsApart.independent {graph : DependencyGraph} (apart : pack.IsApart graph)
    {left right : Nat} (isLeft : left ∈ pack.members) (isRight : right ∈ pack.members)
    (different : left ≠ right) : graph.independent left right := by
  have symm : Std.Symm fun left right => graph.independent left right = true :=
    ⟨fun left right => (graph.independent_comm right left).trans⟩
  exact apart.forall isLeft isRight different

theorem Pack.IsApart.not_mem_successors {graph : DependencyGraph} (apart : pack.IsApart graph)
    (mirrored : graph.IsMirrored) {left right : Nat} (isLeft : left ∈ pack.members)
    (isRight : right ∈ pack.members) : right ∉ graph.successors left := by
  by_cases same : left = right
  · rw [same]
    exact mirrored.loopless right
  · exact fun next => not_reaches_of_independent (apart.independent isLeft isRight same)
      (mirrored.target_lt next) (.single (hasEdge_iff.mpr next))

namespace PackSet

variable {graph : DependencyGraph} {target : Target} {set : PackSet}

theorem isApart_of_canPack {left right : Nat} (able : set.canPack graph target left right)
    (laneType : Option LaneType) :
    Pack.IsApart graph { Pack.pair left right with laneType := laneType } := by
  unfold canPack at able
  rw [Bool.and_eq_true] at able
  exact pairwise_pair.mpr able.2

theorem allM_eq_true {α : Type} {test : α → Except Fault Bool} {items : List α}
    (passed : items.allM test = .ok true) : ∀ item ∈ items, test item = .ok true := by
  induction items with
  | nil => exact fun _ member => nomatch member
  | cons first rest ih =>
    rw [allM] at passed
    obtain ⟨verdict, tested, passed⟩ := Fault.bind_eq_ok.mp passed
    cases verdict with
    | false => cases passed
    | true =>
      intro item member
      rcases mem_cons.mp member with rfl | later
      · exact tested
      · exact ih passed item later

theorem lt_of_accessesNext {left right : Nat} (next : accessesNext graph left right) :
    left < right := by
  unfold accessesNext at next
  split at next
  · rw [Bool.and_eq_true] at next
    exact of_decide_eq_true next.1
  · cases next

theorem isApart_of_canJoin {left right : Pack} (able : canJoin graph left right = .ok true)
    (leftApart : left.IsApart graph) (rightApart : right.IsApart graph) :
    (left.append right).IsApart graph := by
  unfold canJoin at able
  split at able
  · refine pairwise_append.mpr ⟨leftApart, (pairwise_cons.mp rightApart).2, ?_⟩
    intro member isMember other isOther
    exact independent_of_independentChecked
      (allM_eq_true (allM_eq_true able member isMember) other isOther)
  · cases able

end PackSet

/-! ## Members of one kind -/

/-- The operations have one code, one descriptor and as many operands. -/
def Operation.IsLike (left right : Operation) : Prop :=
  left.opcode = right.opcode ∧ left.descriptor = right.descriptor ∧
    left.args.length = right.args.length

namespace Operation.IsLike

variable {left middle right : Operation}

theorem of_isomorphic (isomorphic : PackSet.isomorphic left right) : left.IsLike right := by
  unfold PackSet.isomorphic at isomorphic
  simp only [Bool.and_eq_true, beq_iff_eq] at isomorphic
  exact ⟨isomorphic.1.1, isomorphic.1.2, isomorphic.2⟩

theorem refl (op : Operation) : op.IsLike op :=
  ⟨rfl, rfl, rfl⟩

theorem symm (like : left.IsLike right) : right.IsLike left :=
  ⟨like.1.symm, like.2.1.symm, like.2.2.symm⟩

theorem trans (first : left.IsLike middle) (second : middle.IsLike right) : left.IsLike right :=
  ⟨first.1.trans second.1, first.2.1.trans second.2.1, first.2.2.trans second.2.2⟩

end Operation.IsLike

/-- Two or more independent nodes of one kind, in program order, that have a vector form on one of
the targets. -/
structure Pack.IsSound (targets : Target → Prop) (graph : DependencyGraph) (pack : Pack) :
    Prop where
  wide : 2 ≤ pack.members.length
  ordered : pack.members.IsChain (· < ·)
  alike : ∀ member ∈ pack.members, (graph.op pack.first).IsLike (graph.op member)
  hasForm : ∃ target, targets target ∧ target.vectorForm? (graph.op pack.first).opcode ≠ none
  apart : pack.IsApart graph

namespace Pack

variable {graph other : DependencyGraph} {targets : Target → Prop} {left right : Pack}
  (same : graph.SameEdges other)

include same

theorem isSound_of_canPack (sameOp : ∀ node, other.op node = graph.op node) {set : PackSet}
    {target : Target} (isTarget : targets target) {first second : Nat} (before : first < second)
    (able : set.canPack other target first second) (laneType : Option LaneType) :
    Pack.IsSound targets graph { Pack.pair first second with laneType := laneType } := by
  have apart := isApart_of_canPack able laneType
  unfold canPack at able
  simp only [Bool.and_eq_true, sameOp] at able
  obtain ⟨⟨⟨isomorphic, hasForm⟩, _⟩, _⟩ := able
  refine ⟨Nat.le_refl 2, isChain_pair.mpr before, fun member isMember => ?_,
    ⟨target, isTarget, Option.isSome_iff_ne_none.mp hasForm⟩, (isApart_iff same).mp apart⟩
  rcases mem_cons.mp isMember with rfl | isSecond
  · exact .refl _
  · rw [mem_singleton.mp isSecond]
    exact .of_isomorphic isomorphic

theorem IsSound.append (leftSound : left.IsSound targets graph)
    (rightSound : right.IsSound targets graph) (able : canJoin other left right = .ok true) :
    (left.append right).IsSound targets graph where
  wide := by
    change 2 ≤ (left.members ++ right.rest).length
    rw [length_append]
    exact Nat.le_add_right_of_le leftSound.wide
  ordered := isChain_append (meets_of_canJoin able) leftSound.ordered rightSound.ordered
  alike member isMember := by
    -- A new member is like the node where the two packs meet.
    have isLast : left.last ∈ left.members := getLastD_mem_cons
    have meets : left.last = right.first := eq_of_beq (meets_of_canJoin able)
    rcases mem_append.mp (show member ∈ left.members ++ right.rest from isMember) with
      isLeft | isRight
    · exact leftSound.alike member isLeft
    · have toMeet := leftSound.alike left.last isLast
      rw [meets] at toMeet
      exact toMeet.trans (rightSound.alike member (mem_cons_of_mem _ isRight))
  hasForm := leftSound.hasForm
  apart := (isApart_iff same).mp (isApart_of_canJoin able ((isApart_iff same).mpr leftSound.apart)
    ((isApart_iff same).mpr rightSound.apart))

end Pack

/-! ## Groups -/

namespace PackSet

variable {graph : DependencyGraph} {set : PackSet}

theorem node_assign (set : PackSet) {position : Nat} (inside : position < graph.size) :
    (set.assign graph).node position =
      { graph.node position with pack := set.packOf position } := by
  unfold assign node
  rw [Array.getD_eq_getD_getElem?, Array.getD_eq_getD_getElem?, Array.getElem?_mapIdx,
    Array.getElem?_eq_getElem inside]
  rfl

theorem size_assign (set : PackSet) (graph : DependencyGraph) :
    (set.assign graph).size = graph.size :=
  Array.size_mapIdx

theorem op_assign (set : PackSet) (graph : DependencyGraph) (node : Nat) :
    (set.assign graph).op node = graph.op node := by
  unfold op
  by_cases inside : node < graph.size
  · rw [node_assign set inside]
  · have outside := Nat.le_of_not_lt inside
    rw [node_of_size_le outside,
      node_of_size_le (by rwa [size_assign])]

theorem sameEdges_assign (set : PackSet) (graph : DependencyGraph) :
    graph.SameEdges (set.assign graph) := by
  have same : ∀ position, ((set.assign graph).node position).provides =
      (graph.node position).provides ∧
        ((set.assign graph).node position).depends = (graph.node position).depends := by
    intro position
    by_cases inside : position < graph.size
    · rw [node_assign set inside]
      exact ⟨rfl, rfl⟩
    have outside := Nat.le_of_not_lt inside
    rw [node_of_size_le outside,
      node_of_size_le (by rwa [size_assign])]
    exact ⟨rfl, rfl⟩
  exact ⟨size_assign set graph, fun position => (same position).1, fun position => (same position).2⟩

/-- The graph records which pack each of its nodes belongs to, and each belongs to one at most. -/
structure IsRecorded (graph : DependencyGraph) (packs : List Pack) : Prop where
  pack_iff : ∀ node index, (graph.node node).pack = some index ↔
    ∃ pack, packs[index]? = some pack ∧ node ∈ pack.members
  inside : ∀ pack ∈ packs, ∀ member ∈ pack.members, member < graph.size
  distinct : ∀ pack ∈ packs, pack.members.Nodup

theorem not_mem_of_mem_disjointFrom {claimed : List Nat} {packs : List Pack}
    (kept : pack ∈ disjointFrom claimed packs) {member : Nat} (isMember : member ∈ pack.members) :
    member ∉ claimed := by
  induction packs generalizing claimed with
  | nil => cases kept
  | cons first rest ih =>
    unfold disjointFrom at kept
    split at kept
    · exact ih kept
    rename_i free
    rcases mem_cons.mp kept with rfl | later
    · intro isClaimed
      exact free (any_eq_true.mpr ⟨member, isMember, contains_iff_mem.mpr isClaimed⟩)
    · exact fun isClaimed => ih later (mem_append_right _ isClaimed)

theorem pairwise_disjointFrom (claimed : List Nat) (packs : List Pack) :
    (disjointFrom claimed packs).Pairwise fun left right =>
      ∀ member ∈ left.members, member ∉ right.members := by
  induction packs generalizing claimed with
  | nil => exact List.Pairwise.nil
  | cons first rest ih =>
    unfold disjointFrom
    split
    · exact ih claimed
    · refine pairwise_cons.mpr ⟨fun other kept member isFirst isOther => ?_, ih _⟩
      exact not_mem_of_mem_disjointFrom kept isOther (mem_append_left _ isFirst)

theorem packOf_eq_some_iff {set : PackSet}
    (apart : set.packs.Pairwise fun left right => ∀ member ∈ left.members, member ∉ right.members)
    {index : Nat} :
    set.packOf node = some index ↔ ∃ pack, set.packs[index]? = some pack ∧ node ∈ pack.members := by
  unfold packOf
  rw [findIdx?_eq_some_iff_getElem]
  constructor
  · rintro ⟨inside, isMember, _⟩
    exact ⟨_, getElem?_eq_getElem inside, contains_iff_mem.mp isMember⟩
  rintro ⟨pack, found, isMember⟩
  obtain ⟨inside, rfl⟩ := List.getElem?_eq_some_iff.mp found
  refine ⟨inside, contains_iff_mem.mpr isMember, fun earlier before isEarlier => ?_⟩
  exact pairwise_iff_getElem.mp apart earlier index (Nat.lt_trans before inside) inside
    before node (contains_iff_mem.mp isEarlier) isMember

section

variable (recorded : IsRecorded graph set.packs)

include recorded

theorem group_lt (inside : node < graph.size) :
    group graph node < graph.size + set.packs.length := by
  unfold group
  split
  next index isPack =>
    obtain ⟨pack, found, _⟩ := (recorded.pack_iff node index).mp isPack
    obtain ⟨isIndex, _⟩ := List.getElem?_eq_some_iff.mp found
    omega
  · omega

theorem mem_groupMembers_iff (inside : node < graph.size) {member : Nat} :
    member ∈ set.groupMembers graph (group graph node) ↔
      member < graph.size ∧ group graph member = group graph node := by
  unfold groupMembers
  cases ofNode : (graph.node node).pack with
  | none =>
    have isGroup : group graph node = node := by rw [group, ofNode]
    rw [isGroup, if_pos inside, mem_singleton]
    refine ⟨fun same => same.symm ▸ ⟨inside, isGroup⟩, fun ⟨isMember, same⟩ => ?_⟩
    unfold group at same
    split at same
    · omega
    · exact same
  | some index =>
    obtain ⟨pack, found, _⟩ := (recorded.pack_iff node index).mp ofNode
    have isGroup : group graph node = graph.size + index := by rw [group, ofNode]
    rw [isGroup, if_neg (by omega), Nat.add_sub_cancel_left, found]
    constructor
    · intro isMember
      have ofMember := (recorded.pack_iff member index).mpr ⟨pack, found, isMember⟩
      exact ⟨recorded.inside pack (mem_of_getElem? found) member isMember, by rw [group, ofMember]⟩
    · rintro ⟨isMember, same⟩
      unfold group at same
      split at same
      next other ofMember =>
        obtain rfl : other = index := by omega
        obtain ⟨_, again, isMember⟩ := (recorded.pack_iff member other).mp ofMember
        cases found.symm.trans again
        exact isMember
      · omega

theorem nodup_groupMembers (number : Nat) : (set.groupMembers graph number).Nodup := by
  unfold groupMembers
  split
  · exact nodup_singleton _
  split
  next pack found => exact recorded.distinct pack (mem_of_getElem? found)
  · exact nodup_nil

end

/-- An edge leads from a node of the one group to a node of the other. -/
def Precedes (graph : DependencyGraph) (first second : Nat) : Prop :=
  ∃ source target, target ∈ graph.successors source ∧ group graph source = first ∧
    group graph target = second ∧ first ≠ second

/-- Among waiting nodes there is one whose group waits for no other group, unless a group leads back
to itself. -/
theorem exists_first_group (acyclic : ∀ number, ¬ Relation.TransGen (Precedes graph) number number)
    (waits : Nat → Prop) {some : Nat} (inside : some < graph.size) (isWaiting : waits some) :
    ∃ node < graph.size, waits node ∧ ∀ source target, waits source →
      target ∈ graph.successors source → group graph target = group graph node →
        group graph source = group graph node := by
  let Before (first second : Fin graph.size) : Prop :=
    Relation.TransGen (Precedes graph) (group graph first) (group graph second)
  have trans : IsTrans (Fin graph.size) Before := ⟨fun _ _ _ left right => left.trans right⟩
  have irrefl : Std.Irrefl Before := ⟨fun node => acyclic _⟩
  obtain ⟨node, isMinimal, minimal⟩ := (Finite.wellFounded_of_trans_of_irrefl Before).has_min
    {node | waits node.val} ⟨⟨some, inside⟩, isWaiting⟩
  refine ⟨node.val, node.isLt, isMinimal, fun source target sourceWaits next sameGroup => ?_⟩
  by_contra apart
  have isSource := graph.lt_size_of_mem_successors next
  exact minimal ⟨source, isSource⟩ sourceWaits
    (.single ⟨source, target, next, rfl, sameGroup, apart⟩)

end PackSet

namespace Packing

variable {graph : DependencyGraph} {packing final : Packing} {targets : Target → Prop}

/-- What combining leaves, whatever its outcome: the packs as they were or joined. -/
def afterCombine (packing : Packing) : Packing :=
  match combine packing with
  | .ok _ final => final
  | .error _ final => final

/-- The packs found in a graph by seeding, growing and combining, for some targets and in any
order. -/
inductive Found (targets : Target → Prop) (graph : DependencyGraph) : Packing → Prop where
  | start : Found targets graph ⟨graph, {}⟩
  | seed {packing : Packing} (found : Found targets graph packing) (target : Target)
      (isTarget : targets target) :
      Found targets graph ⟨packing.graph, packing.packs.seed packing.graph target⟩
  | grow {packing : Packing} (found : Found targets graph packing) (target : Target)
      (isTarget : targets target) :
      Found targets graph ⟨packing.graph, packing.packs.grow packing.graph target⟩
  | combine {packing : Packing} (found : Found targets graph packing) :
      Found targets graph packing.afterCombine

theorem afterCombine_eq_of_ok (combined : Packing.combine packing = .ok () final) :
    packing.afterCombine = final := by
  unfold afterCombine
  rw [combined]

theorem afterCombine_eq (packing : Packing) :
    packing.afterCombine = packing ∨ packing.join = .ok packing.afterCombine := by
  unfold afterCombine
  rw [combine_eq]
  by_cases isEmpty : packing.packs.packs.isEmpty = true
  · rw [if_pos isEmpty]
    exact .inl rfl
  rw [if_neg isEmpty]
  cases joined : packing.join with
  | error fault => exact .inl rfl
  | ok next =>
    dsimp only
    cases next.packs.isSchedulable next.graph with
    | error fault => exact .inr rfl
    | ok verdict => cases verdict <;> exact .inr rfl

theorem join_eq_ok (joined : packing.join = .ok final) :
    final.graph = final.packs.assign packing.graph ∧ final.packs.isWithin packing.graph ∧
      ∃ longer : PackSet, final.packs = longer.makeDisjoint := by
  obtain ⟨longer, _, rest⟩ := bind_eq_ok.mp joined
  dsimp only at rest
  split at rest
  next within =>
    cases rest
    exact ⟨rfl, within, longer, rfl⟩
  · cases rest

/-- However the packs were found, the graph has kept its edges and operations, and each pack
satisfies what pairs do and what is kept when packs are joined. -/
theorem Found.every {condition : Pack → Prop} (found : Found targets graph packing)
    (adds : ∀ other : DependencyGraph, graph.SameEdges other →
      (∀ node, other.op node = graph.op node) → ∀ (set : PackSet) (target : Target),
      targets target → ∀ left right, left < right → set.canPack other target left right →
        condition { Pack.pair left right with laneType := laneTypeAt other left })
    (joins : ∀ other : DependencyGraph, graph.SameEdges other → ∀ left right,
      canJoin other left right = .ok true → condition left → condition right →
        condition (left.append right)) :
    graph.SameEdges packing.graph ∧ (∀ node, packing.graph.op node = graph.op node) ∧
      packing.packs.Every condition := by
  induction found with
  | start => exact ⟨.refl graph, fun _ => rfl, fun _ member => nomatch member⟩
  | seed found target isTarget ih =>
    obtain ⟨same, sameOp, every⟩ := ih
    exact ⟨same, sameOp, every.seed fun set _ _ next able =>
      adds _ same sameOp set _ isTarget _ _ (lt_of_accessesNext next) able⟩
  | grow found target isTarget ih =>
    obtain ⟨same, sameOp, every⟩ := ih
    exact ⟨same, sameOp, PackSet.Every.grow (fun set _ _ before able =>
      adds _ same sameOp set _ isTarget _ _ before able) every⟩
  | @combine packing found ih =>
    rcases packing.afterCombine_eq with unchanged | joined
    · rw [unchanged]
      exact ih
    obtain ⟨same, sameOp, every⟩ := ih
    obtain ⟨isAssigned, _, _⟩ := join_eq_ok joined
    refine ⟨?_, fun node => ?_, every_of_join every (joins _ same) joined⟩
    · rw [isAssigned]
      exact same.trans (sameEdges_assign _ _)
    · rw [isAssigned, op_assign]
      exact sameOp node

theorem Found.isSound (found : Found targets graph packing) :
    graph.SameEdges packing.graph ∧ (∀ node, packing.graph.op node = graph.op node) ∧
      packing.packs.Every (Pack.IsSound targets graph) :=
  found.every
    (fun _ same sameOp _ _ isTarget _ _ before able =>
      Pack.isSound_of_canPack same sameOp isTarget before able _)
    fun _ same _ _ able leftSound rightSound => leftSound.append same rightSound able

theorem isRecorded_of_join (joined : packing.join = .ok final)
    (apart : final.packs.Every (Pack.IsApart graph)) :
    PackSet.IsRecorded final.graph final.packs.packs := by
  obtain ⟨isAssigned, isWithin, longer, isDisjoint⟩ := join_eq_ok joined
  have inside : ∀ pack ∈ final.packs.packs, ∀ member ∈ pack.members,
      member < packing.graph.size := by
    intro pack isPack member isMember
    have all := all_eq_true.mp (all_eq_true.mp isWithin pack isPack) member isMember
    exact of_decide_eq_true all
  have disjoint : final.packs.packs.Pairwise fun left right =>
      ∀ member ∈ left.members, member ∉ right.members := by
    rw [isDisjoint]
    exact pairwise_disjointFrom [] longer.packs
  refine ⟨fun node index => ?_, ?_, ?_⟩
  · rw [isAssigned]
    by_cases isNode : node < packing.graph.size
    · rw [node_assign final.packs isNode]
      exact packOf_eq_some_iff disjoint
    rw [node_of_size_le (by
      rw [size_assign]
      exact Nat.le_of_not_lt isNode)]
    constructor
    · intro isPack
      cases isPack
    · rintro ⟨pack, found, isMember⟩
      exact absurd (inside pack (mem_of_getElem? found) node isMember) isNode
  · rw [isAssigned, size_assign]
    exact inside
  · intro pack isPack
    exact (apart pack isPack).imp ne_of_independent

/-- Packs that have been combined are sound, and the graph records them. -/
theorem Found.isRecorded (found : Found targets graph packing)
    (combined : Packing.combine packing = .ok () final) :
    (graph.SameEdges final.graph ∧ (∀ node, final.graph.op node = graph.op node) ∧
      final.packs.Every (Pack.IsSound targets graph)) ∧
        PackSet.IsRecorded final.graph final.packs.packs := by
  have kept := found.combine.isSound
  rw [afterCombine_eq_of_ok combined] at kept
  exact ⟨kept, isRecorded_of_join (join_of_combine combined) fun pack isPack =>
    (kept.2.2 pack isPack).apart⟩

end Packing

end LinearTrace
