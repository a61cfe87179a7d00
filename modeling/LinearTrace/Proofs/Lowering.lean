import LinearTrace.Lowering
import LinearTrace.Proofs.Fault
import LinearTrace.Proofs.Scope.Sequence

/-!
# Lowering keeps the output in scope

While packs are lowered, the output is in scope after the boxes of the header, and
whatever the state remembers about packed boxes is in scope too: the vector that
holds a lane and the copy that a lane was unpacked into.  So the scalar form of a
box that is in scope or held by a lane can be read, and the vectors that are
assembled on the way can be read as well.
-/

namespace LinearTrace.Lowering

open List Option

variable {α β : Type} {header : List Box} {bound : Nat} {made : Box → Prop}
  {lowering before after : Lowering} {op : Operation} {box : Box} {value : Value}

variable {lane : Lane} {values : List Value} {lanes : List (Option Lane)}

/-- The boxes of the header and of the output. -/
def scope (header : List Box) (lowering : Lowering) : List Box :=
  header ++ lowering.output.toList.filterMap Operation.result

/-- The output is in scope, with new boxes from a bound on and others only where they may have been
made, and all that is remembered about packed boxes is in scope. -/
structure IsSound (header : List Box) (bound : Nat) (made : Box → Prop) (lowering : Lowering) :
    Prop where
  inScope : ScopedFrom header lowering.output.toList
  void : ∀ op ∈ lowering.output.toList, op.opcode.resultClass = .void → op.result = none
  past : bound ≤ lowering.supply.next
  below : ∀ box ∈ scope header lowering, box.id < lowering.supply.next
  origin : ∀ box ∈ scope header lowering, box ∈ header ∨ bound ≤ box.id ∨ made box
  lanes : ∀ (box : Box) lane, lowering.lanes[box]? = some lane →
    lane.vector.toBox ∈ scope header lowering
  unpacked : ∀ (box : Box) copy, lowering.unpacked[box]? = some copy →
    copy ∈ scope header lowering

/-- The output has become longer, and packed boxes are still held by lanes. -/
structure Extends (before after : Lowering) : Prop where
  output : ∃ more, after.output.toList = before.output.toList ++ more
  lanes : ∀ box : Box, before.lanes[box]?.isSome → after.lanes[box]?.isSome

theorem Extends.refl (lowering : Lowering) : Extends lowering lowering :=
  ⟨⟨[], (append_nil _).symm⟩, fun _ => id⟩

theorem Extends.trans {first second third : Lowering} (left : Extends first second)
    (right : Extends second third) : Extends first third := by
  obtain ⟨more, isSecond⟩ := left.output
  obtain ⟨further, isThird⟩ := right.output
  refine ⟨⟨more ++ further, ?_⟩, fun box held => right.lanes box (left.lanes box held)⟩
  rw [isThird, isSecond, append_assoc]

theorem Extends.scope (longer : Extends before after) :
    ∀ box ∈ scope header before, box ∈ scope header after := by
  obtain ⟨more, isAfter⟩ := longer.output
  intro box inScope
  unfold Lowering.scope
  rw [isAfter, filterMap_append, ← append_assoc]
  exact mem_append_left _ inScope

/-- The boxes of the value are in scope. -/
def IsScoped (header : List Box) (lowering : Lowering) (value : Value) : Prop :=
  ∀ box ∈ value.box?, box ∈ scope header lowering

/-- The boxes of the value are in scope or held by lanes. -/
def IsReadable (header : List Box) (lowering : Lowering) (value : Value) : Prop :=
  ∀ box ∈ value.box?, box ∈ scope header lowering ∨ lowering.lanes[box]?.isSome

theorem IsScoped.mono (isScoped : IsScoped header before value) (longer : Extends before after) :
    IsScoped header after value :=
  fun box isBox => longer.scope box (isScoped box isBox)

theorem IsReadable.mono (readable : IsReadable header before value)
    (longer : Extends before after) : IsReadable header after value :=
  fun box isBox => (readable box isBox).imp (longer.scope box) (longer.lanes box)

theorem isScoped_const (header : List Box) (lowering : Lowering) (literal : Const) :
    IsScoped header lowering (.const literal) :=
  fun _ isBox => nomatch isBox

theorem isScoped_vector {vector : VectorBox} (inScope : vector.toBox ∈ scope header lowering) :
    IsScoped header lowering vector.toValue := by
  intro box isBox
  cases isBox
  exact inScope

/-- Besides one value, the operands are constants. -/
theorem areScoped_cons (isScoped : IsScoped header lowering value) (literals : List Const) :
    ∀ other ∈ value :: literals.map .const, IsScoped header lowering other := by
  intro other isArg
  rcases mem_cons.mp isArg with rfl | isConst
  · exact isScoped
  · obtain ⟨literal, _, rfl⟩ := List.mem_map.mp isConst
    exact isScoped_const header lowering literal

/-! ## Emitting -/

theorem scope_push (header : List Box) (lowering : Lowering) (op : Operation) :
    scope header { lowering with output := lowering.output.push op } =
      scope header lowering ++ op.result.toList := by
  unfold scope
  rw [Array.toList_push, filterMap_append, append_assoc, op.filterMap_result_cons,
    filterMap_nil, append_nil]

section

variable (sound : IsSound header bound made lowering)

include sound

theorem IsSound.push {supply : BoxSupply} (inScope : op.ScopedIn (scope header lowering))
    (void : op.opcode.resultClass = .void → op.result = none)
    (grown : lowering.supply.next ≤ supply.next) (below : ∀ box ∈ op.result, box.id < supply.next)
    (origin : ∀ box ∈ op.result, bound ≤ box.id ∨ made box) :
    IsSound header bound made
      { lowering with supply := supply, output := lowering.output.push op } := by
  have isScope : scope header { lowering with supply := supply, output := lowering.output.push op }
      = scope header lowering ++ op.result.toList := scope_push header lowering op
  refine ⟨?_, fun other member => ?_, Nat.le_trans sound.past grown, ?_, ?_, ?_, ?_⟩
  · rw [Array.toList_push, scopedFrom_append]
    exact ⟨sound.inScope, inScope, trivial⟩
  · rw [Array.toList_push] at member
    rcases mem_append.mp member with isOld | isNew
    · exact sound.void other isOld
    · rw [mem_singleton.mp isNew]
      exact void
  all_goals rw [isScope]
  · intro box member
    rcases mem_append.mp member with isOld | isNew
    · exact Nat.lt_of_lt_of_le (sound.below box isOld) grown
    · exact below box (mem_toList.mp isNew)
  · intro box member
    rcases mem_append.mp member with isOld | isNew
    · exact sound.origin box isOld
    · exact .inr (origin box (mem_toList.mp isNew))
  · exact fun box lane held => mem_append_left _ (sound.lanes box lane held)
  · exact fun box copy held => mem_append_left _ (sound.unpacked box copy held)

theorem IsSound.emit {type : ValueType} (uses : ∀ value ∈ op.uses, IsScoped header lowering value)
    (isResult : op.result = some ⟨lowering.supply.next, type⟩)
    (valued : op.opcode.resultClass ≠ .void) :
    IsSound header bound made
      { lowering with
        supply := ⟨lowering.supply.next + 1⟩, output := lowering.output.push op } := by
  refine sound.push ⟨uses, fun box isBox inScope => ?_⟩ (fun isVoid => absurd isVoid valued)
    (Nat.le_succ _) (fun box isBox => ?_) fun box isBox => ?_
  · rw [isResult] at isBox
    cases isBox
    exact Nat.lt_irrefl _ (sound.below _ inScope)
  · rw [isResult] at isBox
    cases isBox
    exact Nat.lt_succ_self _
  · rw [isResult] at isBox
    cases isBox
    exact .inl sound.past

theorem IsSound.emitVoid (uses : ∀ value ∈ op.uses, IsScoped header lowering value)
    (isVoid : op.result = none) :
    IsSound header bound made { lowering with output := lowering.output.push op } := by
  have none : ∀ box, box ∉ op.result := fun box => isVoid ▸ not_mem_none box
  exact sound.push ⟨uses, fun box isBox => absurd isBox (none box)⟩ (fun _ => isVoid)
    (Nat.le_refl _) (fun box isBox => absurd isBox (none box)) fun box isBox =>
      absurd isBox (none box)

end

/-! ## Rules -/

/-- The work keeps the state sound and extends it, and its value satisfies a condition, unless it
is stopped. -/
def Lowers (header : List Box) (bound : Nat) (made : Box → Prop) (work : LoweringM α)
    (lowering : Lowering) (post : α → Lowering → Prop) : Prop :=
  IsSound header bound made lowering → Ensures True work lowering fun value after =>
    IsSound header bound made after ∧ Extends lowering after ∧ post value after

namespace Lowers

variable {post : α → Lowering → Prop} {first : LoweringM α} {second : α → LoweringM β}

theorem pure {result : α} (holds : post result lowering) :
    Lowers header bound made (Pure.pure result) lowering post :=
  fun sound => ⟨sound, Extends.refl lowering, holds⟩

theorem bind {motive : α → Lowering → Prop}
    {post : β → Lowering → Prop} (lowers : Lowers header bound made first lowering motive)
    (next : ∀ value after, Extends lowering after → IsSound header bound made after →
      motive value after → Lowers header bound made (second value) after post) :
    Lowers header bound made (first >>= second) lowering post := by
  intro sound
  refine (lowers sound).bind fun value after holds => ?_
  obtain ⟨isSound, longer, holds⟩ := holds
  refine (next value after longer isSound holds isSound).weaken fun result ended ensured => ?_
  exact ⟨ensured.1, longer.trans ensured.2.1, ensured.2.2⟩

theorem bind_get {second : Lowering → LoweringM β} {post : β → Lowering → Prop}
    (lowers : Lowers header bound made (second lowering) lowering post) :
    Lowers header bound made (get >>= second) lowering post :=
  fun sound => Ensures.bind_get (lowers sound)

theorem bind_lift {first : Except Fault α} {post : β → Lowering → Prop}
    (lowers : ∀ value, first = .ok value → Lowers header bound made (second value) lowering post) :
    Lowers header bound made ((liftM first : LoweringM α) >>= second) lowering post :=
  fun sound => Ensures.bind_lift (EnsuresValue.of_ok fun value isOk => lowers value isOk sound)

theorem weaken {work : LoweringM α} {weaker : α → Lowering → Prop}
    (lowers : Lowers header bound made work lowering post)
    (implies : ∀ value after, IsSound header bound made after → post value after →
      weaker value after) : Lowers header bound made work lowering weaker :=
  fun sound => (lowers sound).weaken fun value after holds =>
    ⟨holds.1, holds.2.1, implies value after holds.1 holds.2.2⟩

theorem ite {second : LoweringM α} {condition : Prop}
    [Decidable condition] (left : condition → Lowers header bound made first lowering post)
    (right : ¬condition → Lowers header bound made second lowering post) :
    Lowers header bound made (if condition then first else second) lowering post := by
  split
  · exact left ‹_›
  · exact right ‹_›

/-- What every element of a list satisfies once it is lowered, all of them satisfy in the end. -/
theorem mapM {work : α → LoweringM β} {items : List α} {motive : β → Lowering → Prop}
    (mono : ∀ result before after, Extends before after → motive result before →
      motive result after)
    (each : ∀ item ∈ items, ∀ after, Extends lowering after →
      Lowers header bound made (work item) after motive) :
    Lowers header bound made (items.mapM work) lowering fun results after =>
      results.length = items.length ∧ ∀ result ∈ results, motive result after := by
  induction items generalizing lowering with
  | nil =>
    rw [mapM_nil]
    exact pure ⟨rfl, fun _ member => nomatch member⟩
  | cons item rest ih =>
    rw [mapM_cons]
    refine (each item mem_cons_self lowering (Extends.refl lowering)).bind
      fun first after longer _ isFirst => ?_
    refine (ih fun other member later further => each other (mem_cons_of_mem _ member) later
      (longer.trans further)).bind fun others ended further _ areOthers => pure ?_
    refine ⟨congrArg Nat.succ areOthers.1, fun result member => ?_⟩
    rcases mem_cons.mp member with rfl | member
    · exact mono _ _ _ further isFirst
    · exact areOthers.2 result member

end Lowers

/-! ## Scalars -/

/-- The operation that takes one lane out of a vector. -/
def unpacking (lane : Lane) (copy : Box) : Operation where
  opcode := lane.vector.shape.kind.unpackCode
  args := [lane.vector.toValue, .count lane.position, .int 1]
  result := some copy

theorem resultClass_unpackCode (kind : LaneKind) : kind.unpackCode.resultClass ≠ .void := by
  cases kind <;> exact nofun

theorem uses_unpacking (inScope : lane.vector.toBox ∈ scope header lowering) (copy : Box) :
    ∀ value ∈ (unpacking lane copy).uses, IsScoped header lowering value := by
  intro value isUse
  have isArg : value ∈ [lane.vector.toValue, .count lane.position, .int 1] := by
    simpa [Operation.uses, Operation.failArgs, unpacking] using isUse
  exact areScoped_cons (isScoped_vector inScope) [.int _, .int _] value isArg

theorem IsSound.copied (sound : IsSound header bound made lowering) (source : Box) {copy : Box}
    (inScope : copy ∈ scope header lowering) (unpacks : Nat) :
    IsSound header bound made
      { lowering with
        unpacked := lowering.unpacked.insert source copy, unpacks := unpacks } := by
  refine { sound with unpacked := fun box found isFound => ?_ }
  rcases eq_or_getElem?_of_insert isFound with ⟨_, rfl⟩ | ⟨_, isFound⟩
  · exact inScope
  · exact sound.unpacked box found isFound

/-- The state after a lane is unpacked. -/
def unpackedTo (lowering : Lowering) (source : Box) (lane : Lane) (copy : Box) : Lowering :=
  { lowering with
    supply := ⟨lowering.supply.next + 1⟩
    output := lowering.output.push (unpacking lane copy)
    unpacked := lowering.unpacked.insert source copy
    unpacks := lowering.unpacks + 1 }

/-- A value is its own scalar form, or that is the copy of its box, which is made when the box is
first read. -/
theorem scalar_eq (value : Value) (lowering : Lowering) :
    (scalar value lowering = .ok value lowering ∧ ∀ box ∈ value.box?,
        lowering.unpacked[box]? = none ∧ lowering.lanes[box]? = none) ∨
      (∃ source copy, value = .box source ∧ lowering.unpacked[source]? = some copy ∧
        scalar value lowering = .ok (.box copy) lowering) ∨
      ∃ source lane copy, value = .box source ∧ copy = ⟨lowering.supply.next, source.type⟩ ∧
        lowering.unpacked[source]? = none ∧ lowering.lanes[source]? = some lane ∧
        scalar value lowering = .ok (.box copy) (unpackedTo lowering source lane copy) := by
  cases value with
  | const literal => exact .inl ⟨rfl, fun _ isBox => nomatch isBox⟩
  | box source =>
    simp only [scalar, Work.get_bind]
    cases isCopy : lowering.unpacked[source]? with
    | some copy => exact .inr (.inl ⟨source, copy, rfl, isCopy, rfl⟩)
    | none =>
      cases isLane : lowering.lanes[source]? with
      | none =>
        refine .inl ⟨rfl, fun box isBox => ?_⟩
        cases isBox
        exact ⟨isCopy, isLane⟩
      | some lane => exact .inr (.inr ⟨source, lane, _, rfl, rfl, isCopy, isLane, rfl⟩)

theorem lowers_scalar (readable : IsReadable header lowering value) :
    Lowers header bound made (scalar value) lowering fun result after =>
      IsScoped header after result := by
  refine fun sound => Ensures.of_ran fun result after ran => ?_
  rcases scalar_eq value lowering with ⟨isScalar, unheld⟩ |
    ⟨source, copy, rfl, isCopy, isScalar⟩ | ⟨source, lane, copy, rfl, rfl, _, isHeld, isScalar⟩ <;>
    cases ran.symm.trans isScalar
  · refine ⟨sound, Extends.refl lowering, fun box isBox => (readable box isBox).resolve_right ?_⟩
    rw [(unheld box isBox).2]
    exact nofun
  · refine ⟨sound, Extends.refl lowering, fun box isBox => ?_⟩
    cases isBox
    exact sound.unpacked source copy isCopy
  · have emitted := sound.emit (uses_unpacking (sound.lanes source lane isHeld)
      ⟨lowering.supply.next, source.type⟩) rfl (resultClass_unpackCode _)
    have inScope : (⟨lowering.supply.next, source.type⟩ : Box) ∈ scope header { lowering with
        supply := ⟨lowering.supply.next + 1⟩
        output := lowering.output.push (unpacking lane ⟨lowering.supply.next, source.type⟩) } := by
      change _ ∈ scope header { lowering with output := lowering.output.push _ }
      rw [scope_push]
      exact mem_append_right _ mem_cons_self
    refine ⟨emitted.copied source inScope _, ⟨⟨[_], Array.toList_push⟩, fun _ => id⟩,
      fun box isBox => ?_⟩
    cases isBox
    exact inScope

/-! ## Vectors -/

section

variable {vector : VectorBox} {type : LaneType}

/-- The work gives a vector that is in scope. -/
def LowersVector (header : List Box) (bound : Nat) (made : Box → Prop) (work : LoweringM VectorBox)
    (lowering : Lowering) : Prop :=
  Lowers header bound made work lowering fun vector after => vector.toBox ∈ scope header after

theorem lowers_emitVector {opcode : Opcode} {args : List Value}
    (areScoped : ∀ value ∈ args, IsScoped header lowering value)
    (valued : opcode.resultClass ≠ .void) (shape : VectorShape) :
    LowersVector header bound made (emitVector opcode args shape) lowering := by
  intro sound
  have uses : ∀ value ∈ (Operation.mk opcode args
      (some ⟨lowering.supply.next, .vector shape⟩) none none).uses,
      IsScoped header lowering value := by
    intro value isUse
    exact areScoped value (by simpa [Operation.uses, Operation.failArgs] using isUse)
  refine ⟨sound.emit uses rfl valued, ⟨⟨[_], Array.toList_push⟩, fun _ => id⟩, ?_⟩
  change _ ∈ scope header { lowering with output := lowering.output.push _ }
  rw [scope_push]
  exact mem_append_right _ mem_cons_self

theorem lowers_emptyVector (shape : VectorShape) :
    LowersVector header bound made (emptyVector shape) lowering := by
  refine lowers_emitVector (fun value isArg => ?_) (by decide) shape
  rw [mem_singleton.mp isArg]
  exact isScoped_const header lowering _

section

variable (isVector : vector.toBox ∈ scope header lowering)

include isVector

theorem lowers_packInto (isSource : IsScoped header lowering value) (lane count : Nat) :
    LowersVector header bound made (packInto vector value lane count) lowering := by
  exact lowers_emitVector (forall_mem_cons.mpr ⟨isScoped_vector isVector,
    areScoped_cons isSource [.int _, .int _]⟩) (by cases vector.shape.kind <;> exact nofun) _

theorem lowers_lanesFrom (start count : Nat) :
    LowersVector header bound made (lanesFrom vector start count) lowering := by
  refine Lowers.ite (fun _ => Lowers.pure isVector) fun _ => ?_
  exact lowers_emitVector (areScoped_cons (isScoped_vector isVector) [.int _, .int _])
    (resultClass_unpackCode _) _

theorem lowers_adjustWidth (type : LaneType) :
    LowersVector header bound made (adjustWidth vector type) lowering := by
  refine Lowers.ite (fun _ => ?_) fun _ => Lowers.pure isVector
  exact lowers_emitVector (areScoped_cons (isScoped_vector isVector) [.int _, .int _]) (by decide) _

theorem lowers_fill (readable : ∀ value ∈ values, IsReadable header lowering value) (lane : Nat) :
    LowersVector header bound made (fill vector lane values) lowering := by
  induction values generalizing vector lane lowering with
  | nil => exact Lowers.pure isVector
  | cons value rest ih =>
    refine (lowers_scalar (readable value mem_cons_self)).bind
      fun source after longer _ isSource => ?_
    refine (lowers_packInto (longer.scope _ isVector) isSource lane 1).bind
      fun packed ended further _ isPacked => ?_
    exact ih isPacked (fun other member => ((readable other (mem_cons_of_mem _ member)).mono
      longer).mono further) (lane + 1)

end

theorem lowers_expand (notEmpty : values ≠ [])
    (readable : ∀ value ∈ values, IsReadable header lowering value) (type : LaneType) :
    LowersVector header bound made (expand values type) lowering := by
  refine Lowers.ite (fun _ => ?_) fun _ => ?_
  · have isFirst : values.headD default ∈ values := by
      cases values with
      | nil => exact absurd rfl notEmpty
      | cons first rest => exact mem_cons_self
    refine (lowers_scalar (readable _ isFirst)).bind fun source after longer _ isSource => ?_
    exact lowers_emitVector (areScoped_cons isSource [.int _]) (by split <;> exact nofun) _
  · refine (lowers_emptyVector _).bind fun empty after longer _ isEmpty => ?_
    exact lowers_fill isEmpty (fun value member => (readable value member).mono longer) 0

/-- Values with the lanes that hold them, if any, can be read. -/
def AreHeld (header : List Box) (lowering : Lowering) (values : List (Value × Option Lane)) :
    Prop :=
  ∀ entry ∈ values, IsReadable header lowering entry.1 ∧
    ∀ lane ∈ entry.2, lane.vector.toBox ∈ scope header lowering

theorem AreHeld.mono {values : List (Value × Option Lane)} (held : AreHeld header before values)
    (longer : Extends before after) : AreHeld header after values :=
  fun entry member => ⟨(held entry member).1.mono longer,
    fun lane isLane => longer.scope _ ((held entry member).2 lane isLane)⟩

/-- A run of lanes is taken at once, so the induction goes on behind the run. -/
@[elab_as_elim]
theorem runs_induction {motive : List (Value × Option Lane) → Prop} (nil : motive [])
    (scalar : ∀ value rest, motive rest → motive ((value, none) :: rest))
    (run : ∀ value lane rest, motive (rest.drop (Lane.followers lane (rest.map Prod.snd))) →
      motive ((value, some lane) :: rest)) (values : List (Value × Option Lane)) :
    motive values := by
  induction size : values.length using Nat.strongRecOn generalizing values with
  | ind size ih =>
    match values with
    | [] => exact nil
    | (value, none) :: rest => exact scalar value rest (ih _ (size ▸ Nat.lt_succ_self _) rest rfl)
    | (value, some lane) :: rest =>
      refine run value lane rest (ih _ ?_ _ rfl)
      rw [← size, length_cons, length_drop]
      omega

theorem lowers_gatherInto {values : List (Value × Option Lane)} (position : Nat)
    (isVector : vector.toBox ∈ scope header lowering) (held : AreHeld header lowering values) :
    LowersVector header bound made (gatherInto vector position values) lowering := by
  induction values using runs_induction generalizing vector position lowering with
  | nil =>
    rw [gatherInto]
    exact Lowers.pure isVector
  | scalar value rest ih =>
    rw [gatherInto]
    refine (lowers_scalar (held _ mem_cons_self).1).bind fun source after longer _ isSource => ?_
    refine (lowers_packInto (longer.scope _ isVector) isSource position 1).bind
      fun packed ended further _ isPacked => ?_
    have isHeld : AreHeld header lowering rest :=
      fun entry member => held entry (mem_cons_of_mem _ member)
    exact ih (position + 1) isPacked (isHeld.mono (longer.trans further))
  | run value lane rest ih =>
    rw [gatherInto]
    refine (lowers_lanesFrom ((held _ mem_cons_self).2 lane rfl) lane.position _).bind
      fun part after longer _ isPart => ?_
    refine (lowers_packInto (longer.scope _ isVector) (isScoped_vector isPart) position
      _).bind fun packed ended further _ isPacked => ?_
    have isHeld : ∀ count, AreHeld header lowering (rest.drop count) := fun count entry member =>
      held entry (mem_cons_of_mem _ (mem_of_mem_drop member))
    exact ih _ isPacked ((isHeld _).mono (longer.trans further))

theorem lowers_gather {values : List (Value × Option Lane)}
    (held : AreHeld header lowering values) (type : LaneType) :
    LowersVector header bound made (gather values type) lowering :=
  (lowers_emptyVector _).bind fun _ _ longer _ isEmpty =>
    lowers_gatherInto 0 isEmpty (held.mono longer)

/-- The followers of a lane are the next lanes of its vector. -/
theorem getElem?_of_followers (lane : Lane) (places : List (Option Lane)) {position : Nat}
    (isFollower : position < lane.followers places) :
    places[position]? = some (some ⟨lane.position + 1 + position, lane.vector⟩) := by
  induction places generalizing lane position with
  | nil => cases isFollower
  | cons place rest ih =>
    unfold Lane.followers at isFollower
    split at isFollower
    next next others isNext =>
      obtain ⟨rfl, rfl⟩ := List.cons.inj isNext
      split at isFollower
      next follows =>
        subst follows
        cases position with
        | zero => rfl
        | succ position =>
          rw [getElem?_cons_succ, ih lane.next (Nat.lt_of_succ_lt_succ isFollower)]
          congr 3
          change lane.position + 1 + 1 + position = lane.position + 1 + (position + 1)
          omega
      · cases isFollower
    · cases isFollower

theorem followers_le (lane : Lane) (places : List (Option Lane)) :
    lane.followers places ≤ places.length := by
  refine Nat.le_of_not_lt fun longer => ?_
  have beyond := getElem?_of_followers lane places longer
  rw [getElem?_eq_none (Nat.le_refl _)] at beyond
  cases beyond

theorem consecutive?_eq_some (isFirst : Lane.consecutive? lanes = some lane) :
    ∃ rest, lanes = some lane :: rest ∧ lane.followers rest = rest.length := by
  unfold Lane.consecutive? at isFirst
  split at isFirst
  next first rest =>
    split at isFirst
    · cases isFirst
      exact ⟨rest, rfl, ‹_›⟩
    · cases isFirst
  · cases isFirst

theorem mem_of_consecutive? (isFirst : Lane.consecutive? lanes = some lane) :
    some lane ∈ lanes := by
  obtain ⟨rest, rfl, _⟩ := consecutive?_eq_some isFirst
  exact mem_cons_self

theorem laneOf?_eq_some (isLane : lowering.laneOf? value = some lane) :
    ∃ box : Box, lowering.lanes[box]? = some lane := by
  obtain ⟨box, _, held⟩ := bind_eq_some_iff.mp isLane
  exact ⟨box, held⟩

theorem lowers_placeOperand (notEmpty : values ≠ [])
    (readable : ∀ value ∈ values, IsReadable header lowering value) (type : LaneType)
    (allowsOffset : Bool) :
    Lowers header bound made (placeOperand values type allowsOffset) lowering
      fun operand after => operand.1.toBox ∈ scope header after := by
  intro sound
  have isLane : ∀ value lane, lowering.laneOf? value = some lane →
      lane.vector.toBox ∈ scope header lowering := by
    intro value lane held
    obtain ⟨box, isHeld⟩ := laneOf?_eq_some held
    exact sound.lanes box lane isHeld
  have held : AreHeld header lowering (values.zip (values.map lowering.laneOf?)) := by
    intro entry member
    rw [← map_prod_left_eq_zip] at member
    obtain ⟨value, isValue, rfl⟩ := List.mem_map.mp member
    exact ⟨readable value isValue, isLane value⟩
  have fromFirst (work : LoweringM VectorBox)
      (lowers : LowersVector header bound made work lowering) :
      Lowers header bound made (do return (← work, 0)) lowering
        fun operand after => operand.1.toBox ∈ scope header after :=
    lowers.bind fun _ _ _ _ isVector => Lowers.pure isVector
  refine Lowers.bind_get ?_ sound
  dsimp only
  split
  next lane isFirst =>
    obtain ⟨value, _, held⟩ := List.mem_map.mp (mem_of_consecutive? isFirst)
    refine Lowers.ite (fun _ => Lowers.pure (isLane value lane held)) fun _ => ?_
    exact fromFirst _ (lowers_lanesFrom (isLane value lane held) lane.position values.length)
  · refine Lowers.ite (fun _ => ?_) fun _ => ?_
    · exact fromFirst _ (lowers_expand notEmpty readable type)
    · exact fromFirst _ (lowers_gather held type)

/-- Values that can be read are brought into one vector. -/
theorem lowers_vectorOperand (notEmpty : values ≠ [])
    (readable : ∀ value ∈ values, IsReadable header lowering value) (type : LaneType)
    (allowsOffset : Bool) :
    Lowers header bound made (vectorOperand values type allowsOffset) lowering
      fun operand after => operand.1.toBox ∈ scope header after :=
  (lowers_placeOperand notEmpty readable type allowsOffset).bind fun _ _ _ _ isOperand =>
    (lowers_adjustWidth isOperand type).bind fun _ _ _ _ isVector => Lowers.pure isVector

end

end LinearTrace.Lowering
