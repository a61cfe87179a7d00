import Mathlib.Tactic.MkIffOfInductiveProp
import LinearTrace.Proofs.Lowering.Emit
import LinearTrace.Proofs.Lowering.Turn

/-!
# Vectors that fit a register

A pack is lowered in parts that fit a register when their lanes have the size of its lane type.
The vectors that are made on the way fit as well, as long as none of them has wider lanes: operands
and results are given the lanes of the pack, and lanes that are taken out of a vector took no more
room there.
-/

namespace LinearTrace

open List

variable {count : Nat} {values : List Value} {entries : List (Value × Option Lane)}

theorem VectorShape.byteSize_mk_le (kind : LaneKind) (count size : Nat) (signed : Bool) :
    (VectorShape.mk kind (UInt16.ofNat count) (UInt8.ofNat size) signed).byteSize ≤
      count * size := by
  unfold byteSize
  rw [UInt16.toNat_ofNat', UInt8.toNat_ofNat']
  exact Nat.mul_le_mul (Nat.mod_le _ _) (Nat.mod_le _ _)

/-- A box that holds a vector holds one that fits a register. -/
def Box.Fits (registerSize : Nat) (box : Box) : Prop :=
  ∀ shape, box.type = .vector shape → shape.byteSize ≤ registerSize

instance Box.decidableFits (registerSize : Nat) (box : Box) : Decidable (box.Fits registerSize) :=
  match isType : box.type with
  | .vector shape => decidable_of_iff (shape.byteSize ≤ registerSize)
      ⟨fun fits other isOther => by cases isType.symm.trans isOther; exact fits,
        fun fits => fits shape isType⟩
  | .int | .float | .ref => .isTrue fun _ isShape => by cases isType.symm.trans isShape

/-- A lane of the size fits a register, and in a vector it is not narrower than the narrowest. -/
@[mk_iff]
structure IsLaneSize (registerSize narrow size : Nat) : Prop where
  positive : 0 < size
  within : size ≤ registerSize
  wide : narrow ≤ size % 256

instance (registerSize narrow size : Nat) : Decidable (IsLaneSize registerSize narrow size) :=
  decidable_of_iff' _ (isLaneSize_iff ..)

/-- What bounds the lanes on a machine: the size of lanes that nothing else fixes, and the narrowest
size that any have. -/
structure LaneLimits where
  target : Target
  smallest : Nat
  narrow : Nat
  small : narrow ≤ 8
  isSize : IsLaneSize target.registerSize narrow smallest

abbrev LaneLimits.register (limits : LaneLimits) : Nat :=
  limits.target.registerSize

/-- The lanes up to this one fit a register, and they are not narrower than the narrowest. -/
structure Lane.Fits (limits : LaneLimits) (lane : Lane) : Prop where
  within : (lane.position + 1) * lane.vector.shape.itemSize.toNat ≤ limits.register
  wide : limits.narrow ≤ lane.vector.shape.itemSize.toNat

namespace Lowering

variable {limits : LaneLimits} {lowering : Lowering}

/-- All vectors that were emitted fit a register, and so do the lanes that are remembered. -/
structure IsFitting (limits : LaneLimits) (lowering : Lowering) : Prop where
  isTarget : lowering.target = limits.target
  isRegister : lowering.registerSize = limits.register
  isSmallest : lowering.smallest = limits.smallest
  output : ∀ op ∈ lowering.output.toList, ∀ box ∈ op.result, box.Fits limits.register
  boxes : ∀ (box : Box) lane, lowering.lanes[box]? = some lane → box.Fits limits.register
  lanes : ∀ (box : Box) lane, lowering.lanes[box]? = some lane → lane.Fits limits

theorem IsFitting.push (fitting : IsFitting limits lowering) (op : Operation)
    (fits : ∀ box ∈ op.result, box.Fits limits.register) (supply : BoxSupply) :
    IsFitting limits
      { lowering with supply := supply, output := lowering.output.push op } := by
  refine { fitting with output := fun other member => ?_ }
  rw [Array.toList_push] at member
  rcases mem_append.mp member with isOld | isNew
  · exact fitting.output other isOld
  · rw [mem_singleton.mp isNew]
    exact fits

/-- Unless it is stopped, the work keeps all vectors within a register. -/
abbrev Confines {α : Type} (limits : LaneLimits) (work : LoweringM α) (post : α → Prop) : Prop :=
  Maintains (IsFitting limits) work post

/-! ## Vectors -/

theorem confines_push {op : Operation} (fits : ∀ box ∈ op.result, box.Fits limits.register) :
    Confines limits (push op) fun _ => True :=
  fun lowering fitting => ⟨fitting.push op fits lowering.supply, trivial⟩

theorem confines_emitVector {shape : VectorShape} (fits : shape.byteSize ≤ limits.register)
    (opcode : Opcode) (args : List Value) :
    Confines limits (emitVector opcode args shape) fun vector =>
      vector.shape = shape := by
  intro lowering fitting
  refine ⟨fitting.push _ (fun box isBox => ?_) ⟨lowering.supply.next + 1⟩, rfl⟩
  cases isBox
  intro other isShape
  cases isShape
  exact fits

theorem confines_scalar (value : Value) : Confines limits (scalar value) fun result =>
      ∀ literal, value = .const literal → result = value := by
  refine fun lowering fitting => Ensures.of_ran fun result after ran => ?_
  rcases scalar_eq value lowering with ⟨isScalar, _⟩ | ⟨source, copy, rfl, _, isScalar⟩ |
    ⟨source, lane, copy, rfl, rfl, _, isLane, isScalar⟩ <;> cases ran.symm.trans isScalar
  · exact ⟨fitting, fun _ _ => rfl⟩
  · exact ⟨fitting, nofun⟩
  · have pushed := fitting.push (unpacking lane ⟨lowering.supply.next, source.type⟩)
      (fun box isBox => by
        cases isBox
        exact fitting.boxes source lane isLane) ⟨lowering.supply.next + 1⟩
    exact ⟨{ pushed with }, nofun⟩

section

variable {vector : VectorBox} {type : LaneType}

theorem confines_packInto (fits : vector.shape.byteSize ≤ limits.register) (source : Value)
    (lane count : Nat) :
    Confines limits (packInto vector source lane count) fun packed =>
      packed.shape = vector.shape :=
  confines_emitVector fits _ _

theorem confines_lanesFrom (start : Nat)
    (fits : count * vector.shape.itemSize.toNat ≤ limits.register) :
    Confines limits (lanesFrom vector start count) fun part =>
      part.shape.count.toNat ≤ count := by
  refine .ite (fun whole => Maintains.pure (Nat.le_of_eq whole.2)) fun _ => ?_
  have isCount : (UInt16.ofNat count).toNat ≤ count := by
    rw [UInt16.toNat_ofNat']
    exact Nat.mod_le _ _
  have isSlice : (vector.shape.withCount (UInt16.ofNat count)).byteSize ≤ limits.register :=
    Nat.le_trans (Nat.mul_le_mul_right _ isCount) fits
  refine (confines_emitVector isSlice _ _).weaken fun part isShape => ?_
  rw [isShape]
  exact isCount

theorem confines_adjustWidth
    (fits : type.kind = some .int → vector.shape.count.toNat * type.size ≤ limits.register) :
    Confines limits (adjustWidth vector type) fun _ => True := by
  refine .ite (fun adjusts => ?_) fun _ => Maintains.pure trivial
  have isSize : (UInt8.ofNat type.size).toNat ≤ type.size := by
    rw [UInt8.toNat_ofNat']
    exact Nat.mod_le _ _
  have isAdjusted : (vector.shape.withItemSize (UInt8.ofNat type.size)).byteSize ≤
      limits.register := Nat.le_trans (Nat.mul_le_mul_left _ isSize) (fits adjusts.1)
  exact (confines_emitVector isAdjusted _ _).weaken fun _ _ => trivial

theorem confines_fill (values : List Value) (lane : Nat)
    (fits : vector.shape.byteSize ≤ limits.register) :
    Confines limits (fill vector lane values) fun filled =>
      filled.shape = vector.shape := by
  induction values generalizing vector lane with
  | nil => exact .pure rfl
  | cons value rest ih =>
    refine (confines_scalar value).bind fun source _ => ?_
    refine (confines_packInto fits source lane 1).bind fun packed isShape => ?_
    exact (ih (lane + 1) (isShape ▸ fits)).weaken fun filled same => same.trans isShape

theorem byteSize_assembledShape_le (kind : LaneKind) (positive : 0 < type.size) :
    (assembledShape kind type count).byteSize ≤ count * type.size := by
  unfold assembledShape
  rw [if_pos positive]
  exact VectorShape.byteSize_mk_le kind count type.size type.signed

theorem count_assembledShape_le (kind : LaneKind) (type : LaneType) (count : Nat) :
    (assembledShape kind type count).count.toNat ≤ count := by
  unfold assembledShape
  rw [UInt16.toNat_ofNat']
  exact Nat.mod_le _ _

theorem confines_expand (positive : 0 < type.size)
    (fits : values.length * type.size ≤ limits.register) :
    Confines limits (expand values type) fun vector =>
      vector.shape.count.toNat ≤ values.length := by
  unfold expand
  dsimp only
  generalize (if (values.headD default).type.isFloat = true then LaneKind.float else .int) = kind
  have within := Nat.le_trans (byteSize_assembledShape_le kind positive) fits
  refine .ite (fun _ => ?_) fun _ => ?_
  · refine (confines_scalar _).bind fun source _ => ?_
    refine (confines_emitVector within _ _).weaken fun vector isShape => ?_
    rw [isShape]
    exact count_assembledShape_le kind type _
  · refine (confines_emitVector within _ _).bind fun empty isShape => ?_
    refine (confines_fill values 0 (isShape ▸ within)).weaken fun vector same => ?_
    rw [same, isShape]
    exact count_assembledShape_le kind type _

theorem run_fits {lane : Lane} (places : List (Option Lane)) (first : lane.Fits limits)
    (fits : ∀ other, some other ∈ places → other.Fits limits) :
    (lane.followers places + 1) * lane.vector.shape.itemSize.toNat ≤ limits.register := by
  cases count : lane.followers places with
  | zero =>
    refine Nat.le_trans (Nat.mul_le_mul_right _ ?_) first.within
    omega
  | succ last =>
    have isLast : places[last]? = some (some ⟨lane.position + 1 + last, lane.vector⟩) :=
      getElem?_of_followers lane places (by omega)
    have within := (fits _ (mem_of_getElem? isLast)).within
    refine Nat.le_trans (Nat.mul_le_mul_right _ ?_) within
    dsimp only
    omega

theorem confines_gatherInto (position : Nat) (fits : vector.shape.byteSize ≤ limits.register)
    (lanes : ∀ entry ∈ entries, ∀ lane ∈ entry.2, lane.Fits limits) :
    Confines limits (gatherInto vector position entries) fun gathered =>
      gathered.shape = vector.shape := by
  induction entries using runs_induction generalizing vector position with
  | nil =>
    rw [gatherInto]
    exact .pure rfl
  | scalar value rest ih =>
    rw [gatherInto]
    refine (confines_scalar value).bind fun source _ => ?_
    refine (confines_packInto fits source position 1).bind fun packed isShape => ?_
    exact (ih (position + 1) (isShape ▸ fits) fun entry member =>
      lanes entry (mem_cons_of_mem _ member)).weaken fun _ same => same.trans isShape
  | run value lane rest ih =>
    rw [gatherInto]
    have isRun := run_fits (rest.map Prod.snd) (lanes _ mem_cons_self lane rfl)
      fun other member => by
        obtain ⟨entry, isEntry, isLane⟩ := List.mem_map.mp member
        exact lanes entry (mem_cons_of_mem _ isEntry) other isLane
    refine (confines_lanesFrom lane.position isRun).bind fun part _ => ?_
    refine (confines_packInto fits part.toValue position _).bind fun packed isShape => ?_
    exact (ih _ (isShape ▸ fits) fun entry member => lanes entry
      (mem_cons_of_mem _ (mem_of_mem_drop member))).weaken fun _ same => same.trans isShape

theorem confines_gather (positive : 0 < type.size)
    (fits : entries.length * type.size ≤ limits.register)
    (lanes : ∀ entry ∈ entries, ∀ lane ∈ entry.2, lane.Fits limits) :
    Confines limits (gather entries type) fun vector =>
      vector.shape.count.toNat ≤ entries.length := by
  have within := Nat.le_trans (byteSize_assembledShape_le (type.kind.getD .int) positive) fits
  refine (confines_emitVector within _ _).bind fun empty isShape => ?_
  refine (confines_gatherInto 0 (isShape ▸ within) lanes).weaken fun vector same => ?_
  rw [same, isShape]
  exact count_assembledShape_le _ type _

/-- Values that fit a register as lanes of a type are brought into vectors that fit. A vector whose
lanes are left where they are keeps their width. -/
theorem confines_vectorOperand {allowsOffset : Bool} (positive : 0 < type.size)
    (fits : values.length * type.size ≤ limits.register)
    (keepsWidth : allowsOffset → type.kind ≠ some .int) :
    Confines limits (vectorOperand values type allowsOffset) fun _ => True := by
  refine .bind (motive := fun operand =>
    type.kind = some .int → operand.1.shape.count.toNat ≤ values.length) ?_ fun operand few =>
      (confines_adjustWidth fun isInt =>
        Nat.le_trans (Nat.mul_le_mul_right _ (few isInt)) fits).bind fun _ _ => .pure trivial
  refine .bind_get fun lowering fitting => ?_
  have lanes : ∀ lane, some lane ∈ values.map lowering.laneOf? → lane.Fits limits := by
    intro lane member
    obtain ⟨value, _, isLane⟩ := List.mem_map.mp member
    obtain ⟨box, isHeld⟩ := laneOf?_eq_some isLane
    exact fitting.lanes box lane isHeld
  dsimp only
  split
  next lane isFirst =>
    refine .ite (fun allowed => .pure fun isInt => absurd isInt (keepsWidth allowed)) fun _ => ?_
    obtain ⟨rest, isLanes, allFollow⟩ := consecutive?_eq_some isFirst
    have isRun := run_fits rest (lanes lane (isLanes ▸ mem_cons_self))
      fun other member => lanes other (isLanes ▸ mem_cons_of_mem _ member)
    have length := congrArg List.length isLanes
    rw [length_map, length_cons, ← allFollow] at length
    exact (confines_lanesFrom lane.position (length ▸ isRun)).bind fun _ few => .pure fun _ => few
  · refine .ite (fun _ => ?_) fun _ => ?_
    · exact (confines_expand positive fits).bind fun _ few => .pure fun _ => few
    have length : (values.zip (values.map lowering.laneOf?)).length = values.length := by simp
    refine (confines_gather positive (length.symm ▸ fits) fun entry member lane isLane => ?_).bind
      fun _ few => .pure fun _ => length ▸ few
    exact lanes lane (isLane ▸ (of_mem_zip member).2)

end

end Lowering

end LinearTrace
