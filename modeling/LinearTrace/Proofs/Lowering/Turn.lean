import LinearTrace.Vectorize
import LinearTrace.Proofs.Dependency.Supply
import LinearTrace.Proofs.Lowering.Pack
import LinearTrace.Proofs.Schedule.Ends

/-!
# Emitting a schedule

A turn emits nodes whose sources have been emitted.  So the boxes that it reads are
in scope or held by lanes, and afterwards the same is true of the boxes that it
defines.  A whole schedule thus becomes a loop: the label is emitted first and as
it is, the jump last.
-/

namespace LinearTrace

open Std.HashMap

open List

namespace Opcode

theorem resultClass_of_isDebug {opcode : Opcode} (isDebug : opcode.isDebug) :
    opcode.resultClass = .void := by
  revert isDebug
  cases opcode <;> first | exact fun _ => rfl | exact nofun

end Opcode

namespace Lowering

open Scheduler Vectorizer

variable {graph : DependencyGraph} {packs : List Pack} {header : List Box} {bound : Nat}
  {done : List Nat} {lowering : Lowering} {turn : Turn} {position : Nat}

/-- Some of the nodes define the box. -/
def MadeBy (graph : DependencyGraph) (done : List Nat) (box : Box) : Prop :=
  ∃ node ∈ done, (graph.op node).result = some box

theorem MadeBy.append {box : Box} (made : MadeBy graph done box) (more : List Nat) :
    MadeBy graph (done ++ more) box := by
  obtain ⟨node, isDone, isResult⟩ := made
  exact ⟨node, mem_append_left _ isDone, isResult⟩

/-- The state once some nodes have been emitted: it is sound, and the boxes of those nodes are in
scope or held by lanes. -/
structure IsCurrent (graph : DependencyGraph) (header : List Box) (bound : Nat) (done : List Nat)
    (lowering : Lowering) : Prop where
  sound : IsSound header bound (MadeBy graph done) lowering
  results : ∀ node ∈ done, ∀ box, (graph.op node).result = some box →
    IsReadable header lowering (.box box)

/-- What is emitted ends with the operation of a node, on values in scope. -/
def EndsWith (graph : DependencyGraph) (position : Nat) (before after : Lowering) : Prop :=
  ∃ middle op, after.output.toList = before.output.toList ++ middle ++ [op] ∧
    op.opcode = (graph.op position).opcode ∧ op.result = (graph.op position).result

theorem IsSound.mono_made {made other : Box → Prop} (sound : IsSound header bound made lowering)
    (implies : ∀ box, made box → other box) : IsSound header bound other lowering :=
  { sound with
    origin := fun box inScope => (sound.origin box inScope).imp_right (Or.imp_right (implies box)) }

section

variable (supplied : graph.IsSupplied header)
  (below : ∀ node box, (graph.op node).result = some box → box.id < bound)

include supplied

theorem IsCurrent.isReadable (current : IsCurrent graph header bound done lowering)
    (isNext : IsNext graph packs done turn) {node : Nat} (member : node ∈ turn.nodes packs)
    {value : Value} (isUse : value ∈ (graph.op node).uses) : IsReadable header lowering value := by
  cases value with
  | const literal => exact fun _ isBox => nomatch isBox
  | box box =>
    rcases supplied.exists_source (isNext.inside node member) isUse with
      isInput | ⟨source, previous, isResult⟩
    · intro other isBox
      cases isBox
      exact .inl (mem_append_left _ isInput)
    · exact current.results source (isNext.ready node member source previous) box isResult

theorem ensures_emitPack (current : IsCurrent graph header bound done lowering) {index : Nat}
    (isNext : IsNext graph packs done (.pack index))
    (alike : ∀ pack ∈ packs, ∀ member ∈ pack.members,
      (graph.op member).opcode = (graph.op pack.first).opcode) :
    Ensures True (emitTurn graph packs (.pack index)) lowering fun _ after =>
      IsCurrent graph header bound (done ++ (Turn.pack index).nodes packs) after ∧
        Extends lowering after := by
  unfold emitTurn
  dsimp only
  split
  next pack found =>
    have isNodes := Turn.nodes_pack found
    have readable : CanRead header graph pack.members lowering := fun member isMember value isArg =>
      current.isReadable supplied isNext (isNodes ▸ isMember) (mem_append_left _ isArg)
    have tidy : ∀ member ∈ pack.members, (graph.op member).IsTidy header :=
      fun member isMember => supplied.tidy member (isNext.inside member (isNodes ▸ isMember))
    rw [isNodes]
    refine (lowers_lowerPack readable (alike pack (mem_of_getElem? found)) tidy
      current.sound).bind fun _ after holds => ?_
    obtain ⟨sound, longer, _, holdsResults⟩ := holds
    refine ⟨⟨sound.mono_made fun _ made => made.append _, fun node isDone box isResult => ?_⟩,
      longer⟩
    rcases mem_append.mp isDone with isOld | isMember
    · exact (current.results node isOld box isResult).mono longer
    · intro other isBox
      cases isBox
      exact .inr (holdsResults node isMember box isResult)
  · exact trivial

include below

section

variable (current : IsCurrent graph header bound done lowering)

include current

theorem IsCurrent.not_mem_scope (isNext : IsNext graph packs done turn) {node : Nat}
    (member : node ∈ turn.nodes packs)
    {box : Box} (isResult : (graph.op node).result = some box) : box ∉ scope header lowering := by
  intro inScope
  rcases current.sound.origin box inScope with isInput | isNew | ⟨other, isDone, alsoResult⟩
  · exact supplied.fresh node box isResult isInput
  · exact Nat.lt_irrefl _ (Nat.lt_of_lt_of_le (below node box isResult) isNew)
  · rw [supplied.distinct other node box alsoResult isResult] at isDone
    exact isNext.fresh node member isDone

theorem IsCurrent.push (isNext : IsNext graph packs done (.node position)) {op : Operation}
    (sameCode : op.opcode = (graph.op position).opcode)
    (sameResult : op.result = (graph.op position).result)
    (areScoped : ∀ value ∈ op.uses, IsScoped header lowering value) :
    IsCurrent graph header bound (done ++ [position])
      { lowering with output := lowering.output.push op } := by
  have member : position ∈ (Turn.node position).nodes packs := mem_cons_self
  have tidy := supplied.tidy position (isNext.inside position member)
  have longer : Extends lowering { lowering with output := lowering.output.push op } :=
    ⟨⟨[op], Array.toList_push⟩, fun _ => id⟩
  constructor
  · refine (current.sound.mono_made fun _ made => made.append _).push
      ⟨areScoped, fun box isResult => ?_⟩ (fun isVoid => ?_) (Nat.le_refl _)
      (fun box isResult => ?_) fun box isResult => ?_
    · rw [sameResult] at isResult
      exact current.not_mem_scope supplied below isNext member isResult
    · rw [sameResult]
      rw [sameCode] at isVoid
      exact tidy.void isVoid
    · rw [sameResult] at isResult
      exact Nat.lt_of_lt_of_le (below position box isResult) current.sound.past
    · rw [sameResult] at isResult
      exact .inr ⟨position, mem_append_right _ mem_cons_self, isResult⟩
  · intro node isDone box isResult
    rcases mem_append.mp isDone with isOld | isNew
    · exact (current.results node isOld box isResult).mono longer
    rw [mem_singleton.mp isNew, ← sameResult] at isResult
    intro other isBox
    cases isBox
    refine .inl ?_
    rw [scope_push, isResult]
    exact mem_append_right _ mem_cons_self

theorem ensures_emitNode (isNext : IsNext graph packs done (.node position)) :
    Ensures True (emitTurn graph packs (.node position)) lowering fun _ after =>
      IsCurrent graph header bound (done ++ [position]) after ∧ Extends lowering after ∧
        ((graph.op position).opcode.isDebug = false → EndsWith graph position lowering after) := by
  have member : position ∈ (Turn.node position).nodes packs := mem_cons_self
  have tidy := supplied.tidy position (isNext.inside position member)
  unfold emitTurn
  dsimp only
  cases isDebug : (graph.op position).opcode.isDebug with
  | true =>
    have noResult := tidy.void (Opcode.resultClass_of_isDebug isDebug)
    refine ⟨⟨current.sound.mono_made fun _ made => made.append _,
      fun node isDone box isResult => ?_⟩, Extends.refl lowering, fun shown => by cases shown⟩
    rcases mem_append.mp isDone with isOld | isNew
    · exact current.results node isOld box isResult
    · rw [mem_singleton.mp isNew, noResult] at isResult
      cases isResult
  | false =>
    have readable : ∀ value ∈ (graph.op position).uses, IsReadable header lowering value :=
      fun _ isUse => current.isReadable supplied isNext member isUse
    refine (lowers_lowerScalar readable current.sound).bind fun op after holds => ?_
    obtain ⟨sound, longer, sameCode, sameResult, areScoped⟩ := holds
    have isCurrent : IsCurrent graph header bound done after :=
      ⟨sound, fun node isDone box isResult => (current.results node isDone box isResult).mono longer⟩
    obtain ⟨more, isAfter⟩ := longer.output
    refine ⟨isCurrent.push supplied below isNext sameCode sameResult areScoped,
      longer.trans ⟨⟨[op], Array.toList_push⟩, fun _ => id⟩, fun _ => ⟨more, op, ?_, sameCode,
        sameResult⟩⟩
    rw [← isAfter]
    exact Array.toList_push

end

theorem ensures_emitTurns (alike : ∀ pack ∈ packs, ∀ member ∈ pack.members,
      (graph.op member).opcode = (graph.op pack.first).opcode) {turns : List (Turn × Nat)}
    (current : IsCurrent graph header bound done lowering)
    (inOrder : InOrder graph packs done (turns.map Prod.fst)) :
    Ensures True (turns.forM fun entry => emitTurn graph packs entry.1) lowering fun _ after =>
      IsCurrent graph header bound (done ++ (turns.map Prod.fst).flatMap (Turn.nodes packs)) after ∧
        Extends lowering after := by
  induction turns generalizing done lowering with
  | nil =>
    refine ⟨?_, Extends.refl lowering⟩
    rw [map_nil, flatMap_nil, append_nil]
    exact current
  | cons entry rest ih =>
    obtain ⟨isNext, inOrder⟩ := inOrder
    have first : Ensures True (emitTurn graph packs entry.1) lowering fun _ after =>
        IsCurrent graph header bound (done ++ entry.1.nodes packs) after ∧
          Extends lowering after := by
      generalize entry.1 = turn at isNext
      cases turn with
      | node position =>
        exact (ensures_emitNode supplied below current isNext).weaken
          fun _ _ holds => ⟨holds.1, holds.2.1⟩
      | pack index => exact ensures_emitPack supplied current isNext alike
    refine first.bind fun _ middle holds => ?_
    refine (ih holds.1 inOrder).weaken fun _ after ended => ?_
    rw [map_cons, flatMap_cons, ← append_assoc]
    exact ⟨ended.1, holds.2.trans ended.2⟩

end

/-! ## Whole schedules -/

/-- Nothing has been emitted yet. -/
structure IsEmpty (lowering : Lowering) : Prop where
  output : lowering.output = #[]
  lanes : lowering.lanes = ∅
  unpacked : lowering.unpacked = ∅

section

variable (empty : IsEmpty lowering)

include empty

theorem IsEmpty.isCurrent (below : ∀ box ∈ header, box.id < lowering.supply.next)
    (graph : DependencyGraph) : IsCurrent graph header lowering.supply.next [] lowering := by
  have isScope : scope header lowering = header := by
    unfold scope
    rw [empty.output]
    exact append_nil header
  refine ⟨⟨?_, ?_, Nat.le_refl _, ?_, ?_, ?_, ?_⟩, fun _ isDone => nomatch isDone⟩
  · rw [empty.output]
    exact trivial
  · rw [empty.output]
    exact fun _ member => nomatch member
  · rw [isScope]
    exact below
  · rw [isScope]
    exact fun _ => .inl
  · intro box lane held
    rw [empty.lanes, getElem?_empty] at held
    cases held
  · intro box copy held
    rw [empty.unpacked, getElem?_empty] at held
    cases held

theorem IsEmpty.ensures_scalar (value : Value) :
    Ensures True (scalar value) lowering fun result after => result = value ∧ after = lowering := by
  refine .bind_get ?_
  cases value with
  | const literal => exact ⟨rfl, rfl⟩
  | box source =>
    dsimp only
    rw [empty.unpacked, empty.lanes, getElem?_empty, getElem?_empty]
    exact ⟨rfl, rfl⟩

theorem IsEmpty.ensures_scalars (values : List Value) :
    Ensures True (values.mapM scalar) lowering fun results after =>
      results = values ∧ after = lowering := by
  induction values with
  | nil => exact ⟨rfl, rfl⟩
  | cons value rest ih =>
    rw [mapM_cons]
    refine (empty.ensures_scalar value).bind fun result after same => ?_
    obtain ⟨rfl, rfl⟩ := same
    refine ih.bind fun results after same => ?_
    obtain ⟨rfl, rfl⟩ := same
    exact ⟨rfl, rfl⟩

theorem IsEmpty.ensures_lowerScalar {op : Operation} (noSnapshot : op.snapshot = none) :
    Ensures True (lowerScalar op) lowering fun result after => result = op ∧ after = lowering := by
  obtain ⟨opcode, args, result, descriptor, snapshot⟩ := op
  cases noSnapshot
  refine (empty.ensures_scalars args).bind fun results after same => ?_
  obtain ⟨rfl, rfl⟩ := same
  exact ⟨rfl, rfl⟩

theorem IsEmpty.ensures_emitNode (packs : List Pack)
    (shown : (graph.op position).opcode.isDebug = false)
    (noSnapshot : (graph.op position).snapshot = none) :
    Ensures True (emitTurn graph packs (.node position)) lowering fun _ after =>
      after.output.toList = [graph.op position] := by
  unfold emitTurn
  dsimp only
  rw [shown]
  refine (empty.ensures_lowerScalar noSnapshot).bind fun op after same => ?_
  obtain ⟨rfl, rfl⟩ := same
  change (after.output.push _).toList = _
  rw [empty.output]
  rfl

end

/-- The graph of a loop from which a schedule can be emitted, with packs of operations alike. -/
structure CanEmit (graph : DependencyGraph) (packs : List Pack) (label : Operation) (bound : Nat) :
    Prop where
  mirrored : graph.IsMirrored
  anchored : graph.IsAnchored
  supplied : graph.IsSupplied label.argBoxes
  recorded : PackSet.IsRecorded graph packs
  alike : ∀ pack ∈ packs, ∀ member ∈ pack.members,
    (graph.op member).opcode = (graph.op pack.first).opcode
  unpacked : ∀ pack ∈ packs, ∀ member ∈ pack.members, 0 < member ∧ member + 1 < graph.size
  first : graph.op 0 = label
  isLabel : label.opcode = .label
  distinct : label.argBoxes.Nodup
  last : (graph.op (graph.size - 1)).opcode = .jump
  header : ∀ box ∈ label.argBoxes, box.id < bound
  below : ∀ node box, (graph.op node).result = some box → box.id < bound

/-- Emitting a whole schedule gives a loop that ends with a jump. -/
theorem CanEmit.ensures_emitSchedule {label : Operation} (empty : IsEmpty lowering)
    (able : CanEmit graph packs label lowering.supply.next) :
    Ensures True (emitSchedule graph packs) lowering fun _ after =>
      ∃ body jump, IsLoop after.output.toList label body jump ∧ jump.opcode = .jump ∧
        ∀ op ∈ after.output.toList, op.opcode.resultClass = .void → op.result = none := by
  have large := able.anchored.large
  have unpacked : ∀ node, ¬(0 < node ∧ node + 1 < graph.size) → (graph.node node).pack = none := by
    intro node isEnd
    refine Option.eq_none_iff_forall_ne_some.mpr fun index isPack => ?_
    obtain ⟨pack, found, isMember⟩ := (able.recorded.pack_iff node index).mp isPack
    exact isEnd (able.unpacked pack (mem_of_getElem? found) node isMember)
  have isTidy : label.IsTidy label.argBoxes := by
    have tidy := able.supplied.tidy 0 (by omega)
    rwa [able.first] at tidy
  have noSnapshot : label.snapshot = none := isTidy.unguarded (by
    unfold Operation.isGuard
    rw [able.isLabel]
    rfl)
  rcases scheduled : graph.schedule packs [] with ⟨turns, _ | fault⟩
  · obtain ⟨inOrder, complete⟩ := inOrder_of_schedule able.mirrored able.recorded scheduled
    obtain ⟨between, ends⟩ := exists_ends able.anchored able.mirrored (unpacked 0 (by omega))
      (unpacked _ (by omega)) inOrder fun node inside =>
        complete.mem_iff.mpr (mem_range.mpr inside)
    rw [ends] at inOrder
    obtain ⟨isFirst, inOrder⟩ := inOrder
    obtain ⟨inOrder, isLast, _⟩ := inOrder_append.mp inOrder
    obtain ⟨first, rest, rfl, firstTurn, isRest⟩ := map_eq_cons_iff.mp ends
    obtain ⟨middle, tail, rfl, rfl, isTail⟩ := map_eq_append_iff.mp isRest
    obtain ⟨last, _, rfl, lastTurn, isNil⟩ := map_eq_cons_iff.mp isTail
    obtain rfl := map_eq_nil_iff.mp isNil
    have emitted : Ensures True
        ((first :: (middle ++ [last])).forM fun entry => emitTurn graph packs entry.1) lowering
        fun _ after => ∃ body jump, IsLoop after.output.toList label body jump ∧
          jump.opcode = .jump ∧
          ∀ op ∈ after.output.toList, op.opcode.resultClass = .void → op.result = none := by
      change Ensures True (emitTurn graph packs first.1 >>= fun _ =>
        forM (middle ++ [last]) fun entry => emitTurn graph packs entry.1) lowering _
      rw [forM_append, firstTurn]
      have current := empty.isCurrent able.header graph
      refine ((empty.ensures_emitNode packs (by rw [able.first, able.isLabel]; rfl) (by
        rw [able.first, noSnapshot])).and (ensures_emitNode able.supplied able.below current
          isFirst)).bind fun _ begun holds => ?_
      obtain ⟨isOutput, current, _⟩ := holds
      refine (ensures_emitTurns able.supplied able.below able.alike current inOrder).bind
        fun _ unclosed holds => ?_
      obtain ⟨current, longer⟩ := holds
      change Ensures True (emitTurn graph packs last.1 >>= fun _ => pure ()) unclosed _
      rw [lastTurn]
      refine (ensures_emitNode able.supplied able.below current isLast).bind fun _ after holds => ?_
      obtain ⟨current, _, ends⟩ := holds
      obtain ⟨body, isBody⟩ := longer.output
      obtain ⟨more, jump, isAfter, sameCode, _⟩ := ends (by rw [able.last]; rfl)
      have isJump : jump.opcode = .jump := sameCode.trans able.last
      have shape : after.output.toList = label :: ((body ++ more) ++ [jump]) := by
        rw [isAfter, isBody, isOutput, able.first]
        simp only [cons_append, nil_append, append_assoc]
      refine ⟨body ++ more, jump, ⟨shape, able.isLabel, able.distinct, .inl isJump, ?_⟩, isJump,
        current.sound.void⟩
      have inScope := current.sound.inScope
      rw [shape] at inScope ⊢
      exact (scoped_iff_scopedFrom label _).mpr inScope
    unfold emitSchedule
    rw [scheduled]
    exact emitted.bind fun _ _ holds => holds
  · unfold emitSchedule
    rw [scheduled]
    refine .bind (.of_ran fun _ _ _ => trivial) fun _ _ _ => ?_
    cases fault <;> exact trivial

end Lowering

end LinearTrace
