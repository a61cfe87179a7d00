import LinearTrace.Proofs.Lanes
import LinearTrace.Proofs.Lowering.Pack

/-!
# Lowering keeps the values of lanes

As long as every lane and every copy that is remembered holds the value of its scalar box, a pack
of operations that can be computed lane by lane is lowered to operations after which this is so
again, and a lane holds the result of every member.  Each way to bring operands into place moves
lanes without changing what they hold: lanes of one vector are taken from it or left there with
an offset, equal scalars are spread, and other values are put into a vector run by run.
-/

namespace LinearTrace

open List Nat Arithmetic

variable {start : Nat} {σ : Type} {value operand : Value} {opcode : Opcode} {type : ValueType}
  {done : List Value} {entries : List (Value × Option Lane)}

theorem Work.bind_of_ok {α β : Type} {first : Work σ α} {second : α → Work σ β} {state next : σ}
    {value : α} (isFirst : first state = .ok value next) :
    (first >>= second) state = second value next := by
  change EStateM.bind first second state = _
  unfold EStateM.bind
  rw [isFirst]

theorem Work.lift_of_ok {α : Type} {work : Except Fault α} {value : α} (isWork : work = .ok value)
    (state : σ) : (liftM work : Work σ α) state = .ok value state := by
  rw [isWork]
  rfl

namespace Lowering

variable {α β γ : Type} {arithmetic : Arithmetic α} {scalars : Box → α} {held : LaneValues α}
  {lowering before middle after : Lowering} {more further : List Operation} {op : Operation}

/-- Every lane and every copy that is remembered holds the value of its scalar box, in a box that
was made before. -/
structure Carries (scalars : Box → α) (held : LaneValues α) (lowering : Lowering) : Prop where
  lanes : ∀ (box : Box) lane, lowering.lanes[box]? = some lane →
    held lane.vector.toBox lane.position = some (scalars box)
  vectors : ∀ (box : Box) lane, lowering.lanes[box]? = some lane →
    lane.vector.id < lowering.supply.next ∧ lane.position < 2 ^ 63
  unpacked : ∀ (box : Box) copy, lowering.unpacked[box]? = some copy →
    held copy 0 = some (scalars box)
  copies : ∀ (box : Box) copy, lowering.unpacked[box]? = some copy →
    copy.id < lowering.supply.next

/-- A box of the value that no lane and no copy holds has its value itself. -/
def IsKnown (scalars : Box → α) (held : LaneValues α) (lowering : Lowering) (value : Value) :
    Prop :=
  ∀ box ∈ value.box?, lowering.lanes[box]? = none → lowering.unpacked[box]? = none →
    held box 0 = some (scalars box) ∧ box.id < lowering.supply.next

/-- The boxes that were unpacked stay unpacked, and as many unpackings are counted as there are
newly unpacked boxes. -/
structure UnpacksOnce (before after : Lowering) : Prop where
  kept : ∀ (box : Box) copy, before.unpacked[box]? = some copy → after.unpacked[box]? = some copy
  counted : after.unpacks + before.unpacked.size = before.unpacks + after.unpacked.size

theorem UnpacksOnce.of_eq (same : after.unpacked = before.unpacked)
    (alike : after.unpacks = before.unpacks) : UnpacksOnce before after := by
  constructor
  · rw [same]
    exact fun _ _ => id
  · rw [same, alike]

theorem UnpacksOnce.trans (left : UnpacksOnce before middle) (right : UnpacksOnce middle after) :
    UnpacksOnce before after := by
  constructor
  · exact fun box copy isCopy => right.kept box copy (left.kept box copy isCopy)
  · have := left.counted
    have := right.counted
    omega

/-- Operations were emitted that only move lanes. What older boxes hold and which lanes are
remembered has not changed. -/
structure Routed (arithmetic : Arithmetic α) (before after : Lowering) (held : LaneValues α)
    (more : List Operation) : Prop where
  output : after.output.toList = before.output.toList ++ more
  moves : ∀ op ∈ more, op.opcode.isComputing = false
  frame : ∀ box : Box, box.id < before.supply.next → arithmetic.run held more box = held box
  supply : before.supply.next ≤ after.supply.next
  lanes : after.lanes = before.lanes
  once : UnpacksOnce before after

namespace Routed

theorem refl (lowering : Lowering) (held : LaneValues α) :
    Routed arithmetic lowering lowering held [] where
  output := (append_nil _).symm
  moves := fun _ member => absurd member not_mem_nil
  frame := fun _ _ => rfl
  supply := le_refl _
  lanes := rfl
  once := .of_eq rfl rfl

theorem trans (left : Routed arithmetic before middle held more)
    (right : Routed arithmetic middle after (arithmetic.run held more) further) :
    Routed arithmetic before after held (more ++ further) where
  output := by rw [right.output, left.output, append_assoc]
  moves := fun op member => (mem_append.mp member).elim (left.moves op) (right.moves op)
  frame := fun box isOld => by
    rw [arithmetic.run_append, right.frame box (lt_of_lt_of_le isOld left.supply),
      left.frame box isOld]
  supply := le_trans left.supply right.supply
  lanes := right.lanes.trans left.lanes
  once := left.once.trans right.once

end Routed

theorem IsKnown.of_kept {later : LaneValues α} (known : IsKnown scalars held before value)
    (lanes : ∀ box ∈ value.box?, after.lanes[box]? = before.lanes[box]?)
    (frame : ∀ box : Box, box.id < before.supply.next → later box = held box)
    (supply : before.supply.next ≤ after.supply.next) (once : UnpacksOnce before after) :
    IsKnown scalars later after value := by
  intro box isBox notHeld notCopied
  rw [lanes box isBox] at notHeld
  have notCopied : before.unpacked[box]? = none := by
    cases isCopy : before.unpacked[box]? with
    | none => rfl
    | some copy => exact absurd (once.kept box copy isCopy) (by simp [notCopied])
  obtain ⟨holds, isOld⟩ := known box isBox notHeld notCopied
  exact ⟨by rw [frame box isOld, holds], lt_of_lt_of_le isOld supply⟩

theorem IsKnown.mono (known : IsKnown scalars held before value)
    (routed : Routed arithmetic before after held more) :
    IsKnown scalars (arithmetic.run held more) after value :=
  known.of_kept (fun _ _ => by rw [routed.lanes]) routed.frame routed.supply routed.once

/-- The lanes of an operand, from a lane on, hold the values. -/
structure Holds (arithmetic : Arithmetic α) (scalars : Box → α) (held : LaneValues α)
    (lowering : Lowering) (operand : Value) (start : Nat) (values : List Value) : Prop where
  isOld : ∀ box ∈ operand.box?, box.id < lowering.supply.next
  lane : ∀ position value, values[position]? = some value →
    arithmetic.lane held operand (start + position) = some (arithmetic.value scalars value)

theorem Holds.mono {values : List Value}
    (holds : Holds arithmetic scalars held before operand start values)
    (routed : Routed arithmetic before after held more) :
    Holds arithmetic scalars (arithmetic.run held more) after operand start values := by
  refine ⟨fun box isBox => lt_of_lt_of_le (holds.isOld box isBox) routed.supply,
    fun position value isValue => ?_⟩
  rw [← holds.lane position value isValue]
  cases operand with
  | const literal => rfl
  | box source =>
    change arithmetic.run held more source _ = held source _
    rw [routed.frame source (holds.isOld source rfl)]

/-! ## Rules -/

/-- From a state that carries its values, the work ends in one that does, having moved lanes only,
and its result satisfies a condition. -/
def Routes (arithmetic : Arithmetic α) (scalars : Box → α) (work : LoweringM β)
    (lowering : Lowering) (held : LaneValues α) (post : β → Lowering → LaneValues α → Prop) : Prop :=
  Carries scalars held lowering → ∃ result after more, work lowering = .ok result after ∧
    Routed arithmetic lowering after held more ∧ Carries scalars (arithmetic.run held more) after ∧
      post result after (arithmetic.run held more)

namespace Routes

variable {result : β} {post : β → Lowering → LaneValues α → Prop} {work : LoweringM β}

theorem pure (holds : post result lowering held) :
    Routes arithmetic scalars (Pure.pure result) lowering held post :=
  fun carries => ⟨result, lowering, [], rfl, Routed.refl lowering held, carries, holds⟩

theorem bind {first : LoweringM β} {second : β → LoweringM γ}
    {motive : β → Lowering → LaneValues α → Prop} {post : γ → Lowering → LaneValues α → Prop}
    (routes : Routes arithmetic scalars first lowering held motive)
    (next : ∀ result middle more, Routed arithmetic lowering middle held more →
      motive result middle (arithmetic.run held more) →
      Routes arithmetic scalars (second result) middle (arithmetic.run held more) post) :
    Routes arithmetic scalars (first >>= second) lowering held post := by
  intro carries
  obtain ⟨result, middle, more, isFirst, routed, stillCarries, holds⟩ := routes carries
  obtain ⟨final, after, further, isSecond, reached, finallyCarries, ends⟩ :=
    next result middle more routed holds stillCarries
  refine ⟨final, after, more ++ further, ?_, routed.trans reached, ?_, ?_⟩
  · rw [Work.bind_of_ok isFirst, isSecond]
  · rw [arithmetic.run_append]
    exact finallyCarries
  · rw [arithmetic.run_append]
    exact ends

theorem bind_get {second : Lowering → LoweringM β}
    (routes : Routes arithmetic scalars (second lowering) lowering held post) :
    Routes arithmetic scalars (get >>= second) lowering held post :=
  routes

/-- That the state carries its values may be used to show that work does so. -/
theorem of_carries
    (routes : Carries scalars held lowering → Routes arithmetic scalars work lowering held post) :
    Routes arithmetic scalars work lowering held post :=
  fun carries => routes carries carries

theorem weaken {weaker : β → Lowering → LaneValues α → Prop}
    (routes : Routes arithmetic scalars work lowering held post)
    (implies : ∀ result after later, post result after later → weaker result after later) :
    Routes arithmetic scalars work lowering held weaker := by
  intro carries
  obtain ⟨result, after, more, isWork, routed, stillCarries, holds⟩ := routes carries
  exact ⟨result, after, more, isWork, routed, stillCarries, implies _ _ _ holds⟩

theorem lift {work : Except Fault β}
    (isWork : work = .ok result) (holds : post result lowering held) :
    Routes arithmetic scalars (liftM work : LoweringM β) lowering held post :=
  fun carries => ⟨result, lowering, [], Work.lift_of_ok isWork lowering,
    Routed.refl lowering held, carries, holds⟩

/-- What each item comes to, and what is kept after it, all of them come to. -/
theorem mapM {work : β → LoweringM γ} {items : List β}
    {motive : β → γ → Lowering → LaneValues α → Prop}
    (mono : ∀ item result before after held more, Routed arithmetic before after held more →
      motive item result before held → motive item result after (arithmetic.run held more))
    (each : ∀ item ∈ items, ∀ middle more, Routed arithmetic lowering middle held more →
      Routes arithmetic scalars (work item) middle (arithmetic.run held more) (motive item)) :
    Routes arithmetic scalars (items.mapM work) lowering held fun results after later =>
      List.Forall₂ (fun item result => motive item result after later) items results := by
  induction items generalizing lowering held with
  | nil =>
    rw [List.mapM_nil]
    exact pure .nil
  | cons item rest ih =>
    rw [List.mapM_cons]
    refine (each item mem_cons_self lowering [] (Routed.refl lowering held)).bind
      fun first middle more routed isFirst => ?_
    refine (ih fun other member last further reached => ?_).bind
      fun others after further reached areOthers => pure (.cons ?_ areOthers)
    · rw [← arithmetic.run_append]
      exact each other (mem_cons_of_mem _ member) last _ (routed.trans reached)
    · exact mono _ _ _ _ _ _ reached isFirst

end Routes

/-! ## Emitting -/

/-- The state after an operation that defines the next box of the supply. -/
def emitted (lowering : Lowering) (op : Operation) : Lowering :=
  { lowering with
    supply := ⟨lowering.supply.next + 1⟩
    output := lowering.output.push op }

theorem run_old {box : Box} (isResult : op.result = some ⟨lowering.supply.next, type⟩)
    (isOld : box.id < lowering.supply.next) : arithmetic.run held [op] box = held box := by
  refine arithmetic.run_other held isResult ?_
  rintro rfl
  exact lt_irrefl _ isOld

theorem Carries.emit (carries : Carries scalars held lowering) (arithmetic : Arithmetic α)
    (isResult : op.result = some ⟨lowering.supply.next, type⟩) :
    Carries scalars (arithmetic.run held [op]) (emitted lowering op) where
  lanes := fun box lane isLane => by
    rw [run_old isResult (carries.vectors box lane isLane).1]
    exact carries.lanes box lane isLane
  vectors := fun box lane isLane =>
    ⟨lt_succ_of_lt (carries.vectors box lane isLane).1, (carries.vectors box lane isLane).2⟩
  unpacked := fun box copy isCopy => by
    rw [run_old isResult (carries.copies box copy isCopy)]
    exact carries.unpacked box copy isCopy
  copies := fun box copy isCopy => lt_succ_of_lt (carries.copies box copy isCopy)

theorem Routed.emit (isResult : op.result = some ⟨lowering.supply.next, type⟩)
    (moves : op.opcode.isComputing = false) :
    Routed arithmetic lowering (emitted lowering op) held [op] where
  output := Array.toList_push
  moves := fun other member => by rw [mem_singleton.mp member, moves]
  frame := fun _ isOld => run_old isResult isOld
  supply := le_succ _
  lanes := rfl
  once := .of_eq rfl rfl

theorem routes_emitVector (moves : opcode.isComputing = false) (args : List Value)
    (shape : VectorShape) :
    Routes arithmetic scalars (emitVector opcode args shape) lowering held
      fun vector after later => vector.id < after.supply.next ∧
        later vector.toBox = arithmetic.outcome held opcode args := by
  intro carries
  let op : Operation :=
    { opcode := opcode, args := args, result := some ⟨lowering.supply.next, .vector shape⟩ }
  exact ⟨⟨lowering.supply.next, shape⟩, emitted lowering op, [op], rfl, Routed.emit rfl moves,
    carries.emit arithmetic rfl, lt_succ_self _, arithmetic.run_result held op rfl⟩

theorem laneAction?_unpackCode (kind : LaneKind) : kind.unpackCode.laneAction? = some .select := by
  cases kind <;> rfl

theorem laneAction?_packCode (kind : LaneKind) : kind.packCode.laneAction? = some .insert := by
  cases kind <;> rfl

theorem laneAction?_expandCode (kind : LaneKind) : kind.expandCode.laneAction? = some .spread := by
  cases kind <;> rfl

theorem isComputing_of_laneAction? {action : LaneAction}
    (isAction : opcode.laneAction? = some action) : opcode.isComputing = action.isComputing := by
  unfold Opcode.isComputing
  rw [isAction]
  rfl

/-! ## Scalars -/

section

variable {source copy : Box} {lane : Lane}

theorem Carries.copied (carries : Carries scalars held lowering) (unpacks : Nat)
    (holds : held copy 0 = some (scalars source)) (isOld : copy.id < lowering.supply.next) :
    Carries scalars held
      { lowering with
        unpacked := lowering.unpacked.insert source copy, unpacks := unpacks } := by
  refine { carries with
    unpacked := fun box found isFound => ?_
    copies := fun box found isFound => ?_ }
  · rcases eq_or_getElem?_of_insert isFound with ⟨rfl, rfl⟩ | ⟨_, isOther⟩
    · exact holds
    · exact carries.unpacked box found isOther
  · rcases eq_or_getElem?_of_insert isFound with ⟨rfl, rfl⟩ | ⟨_, isOther⟩
    · exact isOld
    · exact carries.copies box found isOther

theorem UnpacksOnce.insert (notCopied : lowering.unpacked[source]? = none) (copy : Box) :
    UnpacksOnce lowering (unpackedTo lowering source lane copy) := by
  constructor
  · intro box found isFound
    change (lowering.unpacked.insert source copy)[box]? = some found
    rw [Std.HashMap.getElem?_insert, if_neg]
    · exact isFound
    · intro same
      rw [← eq_of_beq same, notCopied] at isFound
      cases isFound
  · have notMember : source ∉ lowering.unpacked := by
      intro member
      rw [Std.HashMap.mem_iff_isSome_getElem?, notCopied] at member
      cases member
    change lowering.unpacks + 1 + lowering.unpacked.size =
      lowering.unpacks + (lowering.unpacked.insert source copy).size
    rw [Std.HashMap.size_insert, if_neg notMember]
    omega

end

/-- What reading the scalar form of a value does: nothing, or one unpacking of a box that has not
been unpacked, which is remembered. -/
def ReadsScalar (value : Value) (before after : Lowering) (more : List Operation) : Prop :=
  after = before ∧ more = [] ∨
    ∃ source lane copy, value = .box source ∧ before.unpacked[source]? = none ∧
      before.lanes[source]? = some lane ∧ more = [unpacking lane copy] ∧
      after.unpacked = before.unpacked.insert source copy

theorem holds_singleton (isOld : ∀ box ∈ operand.box?, box.id < lowering.supply.next)
    (isValue : arithmetic.lane held operand 0 = some (arithmetic.value scalars value)) :
    Holds arithmetic scalars held lowering operand 0 [value] := by
  refine ⟨isOld, fun position found isFound => ?_⟩
  match position with
  | 0 =>
    rw [← Option.some.inj isFound]
    exact isValue

/-- The scalar form of a known value holds the value, and a box is unpacked only once. -/
theorem exists_scalar (arithmetic : Arithmetic α) (known : IsKnown scalars held lowering value)
    (carries : Carries scalars held lowering) :
    ∃ operand after more, scalar value lowering = .ok operand after ∧
      Routed arithmetic lowering after held more ∧
      Carries scalars (arithmetic.run held more) after ∧
      Holds arithmetic scalars (arithmetic.run held more) after operand 0 [value] ∧
      ReadsScalar value lowering after more := by
  rcases scalar_eq value lowering with ⟨isScalar, unheld⟩ |
    ⟨source, copy, rfl, isCopy, isScalar⟩ |
    ⟨source, lane, copy, rfl, isFresh, isCopy, isLane, isScalar⟩
  · have isOwn : ∀ box ∈ value.box?,
        held box 0 = some (scalars box) ∧ box.id < lowering.supply.next :=
      fun box isBox => known box isBox (unheld box isBox).2 (unheld box isBox).1
    refine ⟨value, lowering, [], isScalar, Routed.refl lowering held, carries,
      holds_singleton (fun box isBox => (isOwn box isBox).2) ?_, .inl ⟨rfl, rfl⟩⟩
    cases value with
    | const literal => rfl
    | box source => exact (isOwn source rfl).1
  · refine ⟨.box copy, lowering, [], isScalar, Routed.refl lowering held, carries,
      holds_singleton (fun box isBox => ?_) (carries.unpacked source copy isCopy), .inl ⟨rfl, rfl⟩⟩
    cases isBox
    exact carries.copies source copy isCopy
  · have isValue : arithmetic.run held [unpacking lane copy] copy 0 = some (scalars source) := by
      rw [arithmetic.run_result held (unpacking lane copy) rfl]
      change arithmetic.outcome held lane.vector.shape.kind.unpackCode
        [lane.vector.toValue, .count lane.position, .count 1] 0 = _
      rw [outcome_select (laneAction?_unpackCode _)
        (carries.vectors source lane isLane).2 (by decide) (by decide)]
      exact carries.lanes source lane isLane
    have isResult : (unpacking lane copy).result = some ⟨lowering.supply.next, source.type⟩ :=
      congrArg some isFresh
    have routed : Routed arithmetic lowering (emitted lowering (unpacking lane copy)) held
        [unpacking lane copy] :=
      Routed.emit isResult (isComputing_of_laneAction? (laneAction?_unpackCode _))
    have isNew : copy.id < lowering.supply.next + 1 := isFresh ▸ lt_succ_self _
    refine ⟨.box copy, unpackedTo lowering source lane copy, [unpacking lane copy],
      isScalar, { routed with once := .insert isCopy copy },
      (carries.emit arithmetic isResult).copied _ isValue isNew,
      holds_singleton (fun box isBox => ?_) isValue,
      .inr ⟨source, lane, copy, rfl, isCopy, isLane, rfl, rfl⟩⟩
    cases isBox
    exact isNew

theorem routes_scalar (known : IsKnown scalars held lowering value) :
    Routes arithmetic scalars (scalar value) lowering held fun operand after later =>
      Holds arithmetic scalars later after operand 0 [value] := by
  intro carries
  obtain ⟨operand, after, more, isScalar, routed, stillCarries, holds, _⟩ :=
    exists_scalar arithmetic known carries
  exact ⟨operand, after, more, isScalar, routed, stillCarries, holds⟩

/-! ## Vectors -/

section

variable {vector : VectorBox} {values : List Value}

theorem Holds.of_vector (isOld : vector.id < lowering.supply.next)
    (lane : ∀ position value, values[position]? = some value →
      held vector.toBox (start + position) = some (arithmetic.value scalars value)) :
    Holds arithmetic scalars held lowering vector.toValue start values := by
  refine ⟨fun box isBox => ?_, lane⟩
  cases isBox
  exact isOld

theorem routes_emptyVector (shape : VectorShape) :
    Routes arithmetic scalars (emptyVector shape) lowering held fun vector after later =>
      Holds arithmetic scalars later after vector.toValue 0 [] := by
  refine (routes_emitVector rfl _ shape).weaken fun vector after later made => ?_
  exact Holds.of_vector made.1 fun _ _ isValue => by cases isValue

theorem routes_packInto {source : Value}
    (target : Holds arithmetic scalars held lowering vector.toValue 0 done)
    (fits : Holds arithmetic scalars held lowering source 0 values)
    (startFits : done.length < 2 ^ 63) (countFits : values.length < 2 ^ 63) :
    Routes arithmetic scalars (packInto vector source done.length values.length) lowering held
      fun vector after later =>
        Holds arithmetic scalars later after vector.toValue 0 (done ++ values) := by
  refine (routes_emitVector (isComputing_of_laneAction? (laneAction?_packCode _)) _ _).weaken
    fun packed after later made => Holds.of_vector made.1 fun position value isValue => ?_
  rw [made.2, zero_add, outcome_insert (laneAction?_packCode _) startFits countFits]
  rcases lt_or_ge position done.length with before | behind
  · rw [if_neg fun between => not_lt.mpr between.1 before]
    rw [getElem?_append_left before] at isValue
    have isLane := target.lane position value isValue
    rwa [zero_add] at isLane
  · rw [getElem?_append_right behind] at isValue
    obtain ⟨within, _⟩ := List.getElem?_eq_some_iff.mp isValue
    rw [if_pos ⟨behind, by omega⟩]
    have isLane := fits.lane (position - done.length) value isValue
    rwa [zero_add] at isLane

theorem routes_lanesFrom
    (holds : Holds arithmetic scalars held lowering vector.toValue start values)
    (startFits : start < 2 ^ 63) (countFits : values.length < 2 ^ 63) :
    Routes arithmetic scalars (lanesFrom vector start values.length) lowering held
      fun vector after later => Holds arithmetic scalars later after vector.toValue 0 values := by
  unfold lanesFrom
  split
  next whole =>
    obtain ⟨rfl, _⟩ := whole
    exact Routes.pure holds
  refine (routes_emitVector (isComputing_of_laneAction? (laneAction?_unpackCode _)) _ _).weaken
    fun part after later made => Holds.of_vector made.1 fun position value isValue => ?_
  obtain ⟨within, _⟩ := List.getElem?_eq_some_iff.mp isValue
  rw [made.2, zero_add, outcome_select (laneAction?_unpackCode _) startFits
    countFits within]
  exact holds.lane position value isValue

theorem routes_adjustWidth (type : LaneType)
    (holds : Holds arithmetic scalars held lowering vector.toValue start values) :
    Routes arithmetic scalars (adjustWidth vector type) lowering held fun vector after later =>
      Holds arithmetic scalars later after vector.toValue start values := by
  unfold adjustWidth
  split
  · refine (routes_emitVector rfl _ _).weaken fun resized after later made =>
      Holds.of_vector made.1 fun position value isValue => ?_
    rw [made.2, outcome_resize rfl]
    exact holds.lane position value isValue
  · exact Routes.pure holds

theorem routes_fill (target : Holds arithmetic scalars held lowering vector.toValue 0 done)
    (known : ∀ value ∈ values, IsKnown scalars held lowering value)
    (fits : done.length + values.length < 2 ^ 63) :
    Routes arithmetic scalars (fill vector done.length values) lowering held
      fun vector after later =>
        Holds arithmetic scalars later after vector.toValue 0 (done ++ values) := by
  induction values generalizing vector done lowering held with
  | nil =>
    rw [append_nil]
    exact Routes.pure target
  | cons value rest ih =>
    rw [length_cons] at fits
    refine (routes_scalar (known value mem_cons_self)).bind
      fun source middle more routed isSource => ?_
    refine (routes_packInto (target.mono routed) isSource (by omega) (by simp)).bind
      fun packed after further reached isPacked => ?_
    have filled := ih isPacked (fun other member =>
      ((known other (mem_cons_of_mem _ member)).mono routed).mono reached) (by
        rw [length_append, length_singleton]
        omega)
    rw [length_append, length_singleton, append_assoc] at filled
    exact filled

theorem routes_expand (notEmpty : values ≠ [])
    (known : ∀ value ∈ values, IsKnown scalars held lowering value)
    (fits : values.length < 2 ^ 63) (type : LaneType) :
    Routes arithmetic scalars (expand values type) lowering held fun vector after later =>
      Holds arithmetic scalars later after vector.toValue 0 values := by
  unfold expand
  dsimp only
  generalize (if (values.headD default).type.isFloat = true then LaneKind.float else .int) = kind
  split
  next allEqual =>
    have isFirst : values.headD default ∈ values := by
      cases values with
      | nil => exact absurd rfl notEmpty
      | cons first rest => exact mem_cons_self
    refine (routes_scalar (known _ isFirst)).bind fun source middle more routed isSource => ?_
    refine (routes_emitVector (isComputing_of_laneAction? (laneAction?_expandCode _)) _ _).weaken
      fun spread after later made => Holds.of_vector made.1 fun position value isValue => ?_
    obtain ⟨within, _⟩ := List.getElem?_eq_some_iff.mp isValue
    rw [made.2, zero_add, outcome_spread (laneAction?_expandCode _) fits within,
      eq_of_beq (all_eq_true.mp allEqual value (mem_of_getElem? isValue))]
    exact isSource.lane 0 _ rfl
  · refine (routes_emptyVector _).bind fun empty middle more routed isEmpty => ?_
    exact routes_fill isEmpty (fun value member => (known value member).mono routed) (by simpa)

/-- The values are known, and the lanes beside them, if any, hold them. -/
def AreCarried (arithmetic : Arithmetic α) (scalars : Box → α) (held : LaneValues α)
    (lowering : Lowering) (entries : List (Value × Option Lane)) : Prop :=
  ∀ entry ∈ entries, IsKnown scalars held lowering entry.1 ∧ ∀ lane ∈ entry.2,
    held lane.vector.toBox lane.position = some (arithmetic.value scalars entry.1) ∧
      lane.vector.id < lowering.supply.next ∧ lane.position < 2 ^ 63

theorem AreCarried.mono (carried : AreCarried arithmetic scalars held before entries)
    (routed : Routed arithmetic before after held more) :
    AreCarried arithmetic scalars (arithmetic.run held more) after entries := by
  intro entry member
  obtain ⟨known, lanes⟩ := carried entry member
  refine ⟨known.mono routed, fun lane isLane => ?_⟩
  obtain ⟨holds, isOld, fits⟩ := lanes lane isLane
  rw [routed.frame _ isOld]
  exact ⟨holds, lt_of_lt_of_le isOld routed.supply, fits⟩

/-- A run of lanes holds the values beside which its lanes stand. -/
theorem AreCarried.run {lane : Lane} {rest : List (Value × Option Lane)}
    (carried : AreCarried arithmetic scalars held lowering ((value, some lane) :: rest)) :
    Holds arithmetic scalars held lowering lane.vector.toValue lane.position
      (value :: (rest.take (lane.followers (rest.map Prod.snd))).map Prod.fst) := by
  obtain ⟨isFirst, isOld, _⟩ := (carried _ mem_cons_self).2 lane rfl
  refine Holds.of_vector isOld fun position found isFound => ?_
  cases position with
  | zero =>
    cases isFound
    exact isFirst
  | succ position =>
    rw [getElem?_cons_succ, getElem?_map] at isFound
    obtain ⟨entry, isEntry, rfl⟩ := Option.map_eq_some_iff.mp isFound
    rw [getElem?_take] at isEntry
    obtain ⟨within, isEntry⟩ := Option.ite_none_right_eq_some.mp isEntry
    have isPlace := getElem?_of_followers lane (rest.map Prod.snd) within
    rw [getElem?_map, isEntry] at isPlace
    have holds := ((carried entry (mem_cons_of_mem _ (mem_of_getElem? isEntry))).2 _
      (Option.some.inj isPlace)).1
    rwa [add_right_comm, add_assoc] at holds

theorem routes_gatherInto (target : Holds arithmetic scalars held lowering vector.toValue 0 done)
    (carried : AreCarried arithmetic scalars held lowering entries)
    (fits : done.length + entries.length < 2 ^ 63) :
    Routes arithmetic scalars (gatherInto vector done.length entries) lowering held
      fun vector after later =>
        Holds arithmetic scalars later after vector.toValue 0 (done ++ entries.map Prod.fst) := by
  induction entries using runs_induction generalizing vector done lowering held with
  | nil =>
    rw [gatherInto, map_nil, append_nil]
    exact Routes.pure target
  | scalar value rest ih =>
    rw [gatherInto]
    rw [length_cons] at fits
    refine (routes_scalar (carried _ mem_cons_self).1).bind
      fun source middle more routed isSource => ?_
    refine (routes_packInto (target.mono routed) isSource (by omega) (by simp)).bind
      fun packed after further reached isPacked => ?_
    have isRest : AreCarried arithmetic scalars held lowering rest :=
      fun entry member => carried entry (mem_cons_of_mem _ member)
    have filled := ih isPacked ((isRest.mono routed).mono reached) (by
      rw [length_append, length_singleton]
      omega)
    rw [length_append, length_singleton, append_assoc] at filled
    exact filled
  | run value lane rest ih =>
    rw [gatherInto]
    rw [length_cons] at fits
    have isRun := carried.run
    have startFits := ((carried _ mem_cons_self).2 lane rfl).2.2
    have within := followers_le lane (rest.map Prod.snd)
    rw [length_map] at within
    generalize lane.followers (rest.map Prod.snd) = count at isRun within ih
    generalize isTaken : value :: (rest.take count).map Prod.fst = taken at isRun
    have length : taken.length = count + 1 := by
      rw [← isTaken, length_cons, length_map, length_take,
        min_eq_left within]
    rw [← length]
    refine (routes_lanesFrom isRun startFits (by omega)).bind
      fun part middle more routed isPart => ?_
    refine (routes_packInto (target.mono routed) isPart (by omega) (by omega)).bind
      fun packed after further reached isPacked => ?_
    have isRest : AreCarried arithmetic scalars held lowering (rest.drop count) :=
      fun entry member => carried entry (mem_cons_of_mem _ (mem_of_mem_drop member))
    have filled := ih isPacked ((isRest.mono routed).mono reached) (by
      rw [length_append, length_drop]
      omega)
    rw [length_append, length, ← isTaken, append_assoc, cons_append,
      ← map_append, take_append_drop] at filled
    exact filled

theorem routes_gather (carried : AreCarried arithmetic scalars held lowering entries)
    (fits : entries.length < 2 ^ 63) (type : LaneType) :
    Routes arithmetic scalars (gather entries type) lowering held fun vector after later =>
      Holds arithmetic scalars later after vector.toValue 0 (entries.map Prod.fst) :=
  (routes_emptyVector _).bind fun _ _ _ routed isEmpty =>
    routes_gatherInto isEmpty (carried.mono routed) (by simpa)

theorem laneOf?_eq_some_iff {lane : Lane} : lowering.laneOf? value = some lane ↔
      ∃ box, value = .box box ∧ lowering.lanes[box]? = some lane := by
  unfold laneOf?
  cases value with
  | const literal => simp [Value.box?]
  | box source => simp [Value.box?]

theorem Carries.areCarried (carries : Carries scalars held lowering) (arithmetic : Arithmetic α)
    (known : ∀ value ∈ values, IsKnown scalars held lowering value) :
    AreCarried arithmetic scalars held lowering (values.zip (values.map lowering.laneOf?)) := by
  intro entry member
  rw [← map_prod_left_eq_zip] at member
  obtain ⟨value, isValue, rfl⟩ := mem_map.mp member
  refine ⟨known value isValue, fun lane isLane => ?_⟩
  obtain ⟨box, rfl, isHeld⟩ := laneOf?_eq_some_iff.mp isLane
  exact ⟨carries.lanes box lane isHeld, carries.vectors box lane isHeld⟩

theorem Carries.holds_of_consecutive? (carries : Carries scalars held lowering)
    (arithmetic : Arithmetic α) (known : ∀ value ∈ values, IsKnown scalars held lowering value)
    {lane : Lane} (isFirst : Lane.consecutive? (values.map lowering.laneOf?) = some lane) :
    Holds arithmetic scalars held lowering lane.vector.toValue lane.position values ∧
      lane.position < 2 ^ 63 := by
  have carried := carries.areCarried arithmetic known
  obtain ⟨lanes, isLanes, allFollow⟩ := consecutive?_eq_some isFirst
  cases values with
  | nil => cases isLanes
  | cons value rest =>
    obtain ⟨isLane, isRest⟩ := cons.inj isLanes
    rw [map_cons, zip_cons_cons, isLane] at carried
    refine ⟨?_, ((carried _ mem_cons_self).2 lane rfl).2.2⟩
    have isRun := carried.run
    rw [map_snd_zip (by simp), isRest, allFollow, ← isRest, length_map,
      take_of_length_le (by simp), map_fst_zip (by simp)] at isRun
    exact isRun

section

variable (notEmpty : values ≠ []) (known : ∀ value ∈ values, IsKnown scalars held lowering value)
  (fits : values.length < 2 ^ 63) (type : LaneType) (allowsOffset : Bool)

include notEmpty known fits

theorem routes_placeOperand :
    Routes arithmetic scalars (placeOperand values type allowsOffset) lowering held
      fun operand after later =>
        Holds arithmetic scalars later after operand.1.toValue operand.2 values ∧
          operand.2 < 2 ^ 63 ∧ (allowsOffset = false → operand.2 = 0) := by
  have fromFirst (work : LoweringM VectorBox)
      (routes : Routes arithmetic scalars work lowering held fun vector after later =>
        Holds arithmetic scalars later after vector.toValue 0 values) :
      Routes arithmetic scalars (do return (← work, 0)) lowering held fun operand after later =>
        Holds arithmetic scalars later after operand.1.toValue operand.2 values ∧
          operand.2 < 2 ^ 63 ∧ (allowsOffset = false → operand.2 = 0) :=
    routes.bind fun _ _ _ _ isVector => Routes.pure ⟨isVector, Nat.two_pow_pos 63, fun _ => rfl⟩
  refine Routes.of_carries fun carries => Routes.bind_get ?_
  dsimp only
  split
  next lane isFirst =>
    obtain ⟨holds, startFits⟩ := carries.holds_of_consecutive? arithmetic known isFirst
    split
    next allowed =>
      exact Routes.pure ⟨holds, startFits, fun notAllowed => absurd allowed (by simp [notAllowed])⟩
    · exact fromFirst _ (routes_lanesFrom holds startFits fits)
  · split
    · exact fromFirst _ (routes_expand notEmpty known fits type)
    · refine fromFirst _ ((routes_gather (carries.areCarried arithmetic known) (by simpa)
        type).weaken fun vector after later holds => ?_)
      rwa [map_fst_zip (by simp)] at holds

/-- Known values are brought into one vector; only where an offset may be passed on do they start
at another lane than the first. -/
theorem routes_vectorOperand :
    Routes arithmetic scalars (vectorOperand values type allowsOffset) lowering held
      fun operand after later =>
        Holds arithmetic scalars later after operand.1.toValue operand.2 values ∧
          operand.2 < 2 ^ 63 ∧ (allowsOffset = false → operand.2 = 0) :=
  (routes_placeOperand notEmpty known fits type allowsOffset).bind
    fun _ _ _ _ placed => (routes_adjustWidth type placed.1).bind
      fun _ _ _ _ isVector => Routes.pure ⟨isVector, placed.2⟩

end

end

end Lowering

end LinearTrace
