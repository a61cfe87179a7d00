import LinearTrace.Proofs.Lowering.Width

/-!
# Packs that fit a register

The lanes of a pack have the item size of an array, the size of the operands that are already held
in vectors, or the smallest item size.  As long as all of these fit a register and no operation asks
for wider lanes than the pack has, each part of a pack fits, and so does everything that a schedule
emits.
-/

namespace LinearTrace

open List Option Maintains Nat Vectorizer DependencyGraph Opcode LaneType

variable {position count size least : Nat} {lane : Lane} {lanes : LaneType} {args : List Value}

/-! ## Signatures -/

namespace Opcode

/-- The vector forms of conversions between numbers. -/
def isLaneCast : Opcode → Bool
  | .vecCastFloatToSingle | .vecCastSingleToFloat | .vecCastFloatToInt | .vecCastIntToFloat => true
  | _ => false

variable {form : Opcode} {signature : VectorSignature}

section

variable (isSignature : form.vectorSignature? = some signature)

include isSignature

theorem size_operand_of_vectorSignature? : ∀ lanes, some lanes ∈ signature.operands →
      lanes.size = 0 ∨ form.isLaneCast ∧ lanes.size ≤ 8 := by
  revert isSignature
  cases form <;> rintro ⟨⟩ <;> simp [isLaneCast, anyInt, anyFloat, unknown, single,
      double, word]

theorem size_result_of_vectorSignature? : (signature.result.getD .unknown).size =
      if form = .vecCastFloatToSingle then 4 else if form.isLaneCast then 8 else 0 := by
  revert isSignature
  cases form <;> rintro ⟨⟩ <;> rfl

theorem kind_operand_of_vectorSignature? (passesOffset : signature.passesOffset) :
    signature.fromArray = false ∧
      ∀ lanes, some lanes ∈ signature.operands → lanes.kind = some .float := by
  revert isSignature passesOffset
  cases form <;> rintro ⟨⟩ <;> simp [single]

theorem resultSizeOperand_of_vectorSignature?
    (isPosition : signature.resultSizeOperand = some position) :
    form = .vecIntSignExtend ∧ position = 1 ∧ signature.operandAt position = none := by
  revert isSignature isPosition
  cases form <;> rintro ⟨⟩ ⟨⟩
  exact ⟨rfl, rfl, rfl⟩

end

end Opcode

theorem LaneType.size_resolve (lanes type : LaneType) :
    (lanes.resolve type).size = if lanes.size = 0 then type.size else lanes.size := by
  unfold resolve orSizeOf orKindOf
  split <;> split <;> rfl

theorem LaneType.kind_resolve {lanes : LaneType} {kind : LaneKind} (isKind : lanes.kind = some kind)
    (type : LaneType) : (lanes.resolve type).kind = some kind := by
  have isKept : lanes.orKindOf type = lanes := by
    unfold orKindOf
    rw [isKind]
    rfl
  unfold resolve orSizeOf
  rw [isKept]
  split <;> exact isKind

namespace Lowering

variable {limits : LaneLimits} {graph : DependencyGraph} {signature : VectorSignature}
  {type : LaneType} {part : List Nat}

/-- In a part of some lanes, operands and result fit a register. -/
structure FitsPart (limits : LaneLimits) (signature : VectorSignature) (type : LaneType)
    (count : Nat) : Prop where
  few : count * type.size ≤ limits.register
  wide : limits.narrow ≤ type.size
  operand : ∀ lanes, some lanes ∈ signature.operands →
    0 < (resolvedLanes signature type lanes).size ∧
      (resolvedLanes signature type lanes).size ≤ type.size
  keepsWidth : signature.passesOffset = true → ∀ lanes, some lanes ∈ signature.operands →
    (resolvedLanes signature type lanes).kind ≠ some .int
  result : ∀ lanes ∈ signature.result,
    limits.narrow ≤ (resolvedLanes signature type lanes).size % 256 ∧
      (resolvedLanes signature type lanes).size ≤ type.size

theorem FitsPart.within {count size : Nat} (fits : FitsPart limits signature type count)
    (narrower : size ≤ type.size) : count * size ≤ limits.register :=
  Nat.le_trans (mul_le_mul_left _ narrower) fits.few

theorem size_resolvedLanes (signature : VectorSignature) (type lanes : LaneType) :
    (resolvedLanes signature type lanes).size = type.size ∨
      lanes.size ≠ 0 ∧ (resolvedLanes signature type lanes).size = lanes.size := by
  unfold resolvedLanes
  split
  · exact .inl rfl
  rw [size_resolve]
  split
  · exact .inl rfl
  · exact .inr ⟨‹_›, rfl⟩

theorem fitsPart_of_vectorSignature? {form : Opcode}
    (isSignature : form.vectorSignature? = some signature)
    (fits : IsLaneSize limits.register limits.narrow type.size)
    (few : count * type.size ≤ limits.register)
    (cast : form.isLaneCast → 8 ≤ type.size ∧ form ≠ .vecCastFloatToSingle) :
    FitsPart limits signature type count := by
  refine ⟨few, Nat.le_trans fits.wide (mod_le _ _), fun lanes isOperand => ?_,
    fun passesOffset lanes isOperand => ?_, fun lanes isResult => ?_⟩
  · rcases size_resolvedLanes signature type lanes with same | ⟨sized, same⟩
    · rw [same]
      exact ⟨fits.positive, le_refl _⟩
    obtain ⟨isCast, most⟩ :=
      (size_operand_of_vectorSignature? isSignature lanes isOperand).resolve_left sized
    rw [same]
    exact ⟨pos_of_ne_zero sized, Nat.le_trans most (cast isCast).1⟩
  · obtain ⟨notArray, isFloat⟩ := kind_operand_of_vectorSignature? isSignature passesOffset
    unfold resolvedLanes
    rw [notArray, if_neg Bool.false_ne_true, kind_resolve (isFloat lanes isOperand)]
    exact nofun
  · rcases size_resolvedLanes signature type lanes with same | ⟨sized, same⟩
    · rw [same]
      exact ⟨fits.wide, le_refl _⟩
    have isSize := size_result_of_vectorSignature? isSignature
    rw [mem_def.mp isResult, getD_some] at isSize
    split at isSize
    next isSingle => exact absurd isSingle (cast (isSingle ▸ rfl)).2
    split at isSize
    next isCast =>
      rw [same, isSize]
      exact ⟨limits.small, (cast isCast).1⟩
    · exact absurd isSize sized

/-! ## Parts -/

theorem length_part {length : Nat} {members part : List Nat}
    (isPart : part ∈ parts length members) : part.length ≤ max length 1 := by
  fun_induction parts length members with
  | case1 => cases isPart
  | case2 first rest ih =>
    rcases mem_cons.mp isPart with rfl | isLater
    · rw [length_cons, length_take]
      omega
    · exact ih isLater

theorem confines_lowerOperand (fits : FitsPart limits signature type part.length) (value : Value)
    (position : Nat) :
    Confines limits (lowerOperand graph signature type part value position)
      fun operand => signature.operandAt position = none →
        ∀ literal, value = .const literal → operand.1 = value := by
  unfold lowerOperand
  split
  next lanes isVector =>
    have isOperand : some lanes ∈ signature.operands :=
      mem_of_getElem? (join_eq_some_iff.mp isVector)
    refine .bind (motive := fun values => values.length = part.length) ?_ fun values length => ?_
    · refine (Maintains.mapM (motive := fun _ _ => True) fun member _ => ?_).weaken
        fun values related => related.length_eq.symm
      exact .bind_lift fun node _ => lift fun _ _ => trivial
    · obtain ⟨positive, narrower⟩ := fits.operand lanes isOperand
      refine (confines_vectorOperand positive (length ▸ fits.within narrower) fun passesOffset =>
        fits.keepsWidth passesOffset lanes isOperand).bind fun operand _ => ?_
      exact .pure fun isScalar => by cases isVector.symm.trans isScalar
  · exact (confines_scalar value).bind fun operand same => pure fun _ => same

/-- A result has the lanes of its signature, or the narrowest where an operand gives their size. -/
theorem resultShape_fits (fits : FitsPart limits signature type count)
    (isResult : lanes ∈ signature.result)
    (sized : ∀ position, signature.resultSizeOperand = some position →
      args[position]? = some (.count limits.narrow)) {shape : VectorShape}
    (isShape : resultShape signature ((resolvedLanes signature type lanes).shape count) args =
      .ok shape) :
    shape.count.toNat ≤ count ∧ count * shape.itemSize.toNat ≤ limits.register ∧
      limits.narrow ≤ shape.itemSize.toNat := by
  have isCount : (UInt16.ofNat count).toNat ≤ count := by
    rw [UInt16.toNat_ofNat']
    exact mod_le _ _
  unfold resultShape at isShape
  split at isShape
  · cases isShape
    have isSize : (UInt8.ofNat (resolvedLanes signature type lanes).size).toNat =
        (resolvedLanes signature type lanes).size % 256 := UInt8.toNat_ofNat'
    obtain ⟨wide, narrower⟩ := fits.result lanes isResult
    refine ⟨isCount, fits.within ?_, Nat.le_trans wide (le_of_eq isSize.symm)⟩
    exact Nat.le_trans (le_of_eq isSize) (Nat.le_trans (mod_le _ _) narrower)
  next position isPosition =>
    rw [sized position isPosition] at isShape
    cases isShape
    have isKept : ∀ size ≤ 8, (Int64.ofNat size).toUInt64.toUInt8.toNat = size := by decide
    have isSize := isKept limits.narrow limits.small
    exact ⟨isCount, fits.within (Nat.le_trans (le_of_eq isSize) fits.wide),
      le_of_eq isSize.symm⟩

theorem confines_lowerResult (fits : FitsPart limits signature type part.length)
    (sized : ∀ position, signature.resultSizeOperand = some position →
      args[position]? = some (.count limits.narrow))
    (results : ∀ node, ∀ box ∈ (graph.op node).result, box.Fits limits.register) :
    Confines limits (lowerResult graph signature type part args) fun result =>
      ∀ vector ∈ result, vector.shape.byteSize ≤ limits.register := by
  intro lowering fitting
  refine (ensures_lowerResult graph signature type part args lowering).weaken
    fun result after ended => ?_
  rcases ended with ⟨rfl, _, rfl⟩ | ⟨types, shape, lanes, isResult, isShape, rfl, rfl, records⟩
  · exact ⟨fitting, nofun⟩
  obtain ⟨few, within, wide⟩ := resultShape_fits fits isResult sized isShape
  refine ⟨{ fitting with
    boxes := fun box lane isLane => ?_
    lanes := fun box lane isLane => ?_ }, fun vector isVector => ?_⟩
  · rcases records box with ⟨_, isKept⟩ | ⟨_, member, _, isBox, _⟩
    · exact fitting.boxes box lane (isKept ▸ isLane)
    · exact results member box isBox
  · rcases records box with ⟨_, isKept⟩ | ⟨index, member, isMember, _, isNew⟩
    · exact fitting.lanes box lane (isKept ▸ isLane)
    cases isNew.symm.trans isLane
    have inPart := (List.getElem?_eq_some_iff.mp isMember).1
    exact ⟨Nat.le_trans (mul_le_mul_right _ (by dsimp only; omega)) within, wide⟩
  · cases isVector
    exact Nat.le_trans (mul_le_mul_right _ few) within

theorem getElem?_partArgs {operands : List (Value × Option Nat)} {values more : List Value}
    (isScalar : signature.operandAt position = none)
    (isSize : values[position]? = some (.count size))
    (kept : List.Forall₂ (fun (item : Value × Nat) operand => signature.operandAt item.2 = none →
      ∀ literal, item.1 = .const literal → operand.1 = item.1) values.zipIdx operands) :
    (operands.map Prod.fst ++ more)[position]? = some (.count size) := by
  have isItem : values.zipIdx[position]? = some (.count size, position) := by
    rw [getElem?_zipIdx, isSize, zero_add]
    rfl
  obtain ⟨operand, isOperand⟩ : ∃ operand, operands[position]? = some operand := by
    have bound := (List.getElem?_eq_some_iff.mp isItem).1
    rw [kept.length_eq] at bound
    exact ⟨_, getElem?_eq_getElem bound⟩
  have same := getElem?_of_forall₂ kept isItem isOperand
  have isFirst : (operands.map Prod.fst)[position]? = some (.count size) := by
    rw [getElem?_map, isOperand, map_some, same isScalar _ rfl]
  rw [getElem?_append_left (List.getElem?_eq_some_iff.mp isFirst).1]
  exact isFirst

theorem confines_lowerPart {form : Opcode} (fits : FitsPart limits signature type part.length)
    (sized : ∀ position, signature.resultSizeOperand = some position →
      signature.operandAt position = none ∧
        (graph.op (part.headD 0)).args[position]? = some (.count limits.narrow))
    (results : ∀ node, ∀ box ∈ (graph.op node).result, box.Fits limits.register) :
    Confines limits (lowerPart graph form signature type part) fun _ => True := by
  refine .bind_lift fun node fetched => ?_
  rw [show node.op = graph.op (part.headD 0) from congrArg Node.op (fetch_eq_ok fetched)]
  refine (Maintains.mapM fun item _ => confines_lowerOperand fits item.1 item.2).bind
    fun operands kept => ?_
  refine (confines_lowerResult fits (fun position isPosition => ?_) results).bind
    fun result within => ?_
  · obtain ⟨isScalar, isSize⟩ := sized position isPosition
    rw [append_assoc]
    exact getElem?_partArgs isScalar isSize kept
  refine (confines_push fun box isBox => ?_).bind fun _ _ lowering fitting =>
    ⟨{ fitting with }, trivial⟩
  obtain ⟨vector, isVector, rfl⟩ := map_eq_some_iff.mp isBox
  intro shape isShape
  cases isShape
  exact within vector isVector

end Lowering

/-! ## Packs -/

/-- Whatever the machine makes of the operation, its lanes fit a register: items of arrays fit, no
operation brings a vector that does not, a sign extension is one to the narrowest lanes, and a
conversion, which has lanes of eight bytes, does not make them narrower.  Conversions that do are
left out, although some of them fit. -/
@[mk_iff]
structure Operation.FitsRegister (target : Target) (narrow : Nat) (op : Operation) : Prop where
  items : ∀ array ∈ op.array?, (LaneType.ofArray array).isValid = true →
    IsLaneSize target.registerSize narrow array.itemSize
  result : ∀ box ∈ op.result, box.Fits target.registerSize
  signExtension : target.vectorForm? op.opcode = some .vecIntSignExtend →
    op.args[1]? = some (.count narrow)
  cast : ∀ form ∈ target.vectorForm? op.opcode, form.isLaneCast = true →
    op.array? = none ∧ 8 ≤ target.registerSize ∧ form ≠ .vecCastFloatToSingle

instance (target : Target) (narrow : Nat) (op : Operation) :
    Decidable (op.FitsRegister target narrow) :=
  decidable_of_iff' _ (Operation.fitsRegister_iff ..)

theorem Lane.Fits.isLaneSize {limits : LaneLimits} (fits : lane.Fits limits) :
    lane.vector.shape.itemSize.toNat = 0 ∨
      IsLaneSize limits.register limits.narrow lane.vector.shape.itemSize.toNat := by
  refine (Nat.eq_zero_or_pos _).imp_right fun positive => ⟨positive, ?_, ?_⟩
  · exact Nat.le_trans (Nat.le_mul_of_pos_left _ (Nat.succ_pos _)) fits.within
  · rw [Nat.mod_eq_of_lt (UInt8.toNat_lt _)]
    exact fits.wide

theorem LaneType.size_widen (type : LaneType) (shape : VectorShape) :
    (type.widen shape).size = max type.size shape.itemSize.toNat := by
  unfold widen orKindOf
  split <;> rfl

namespace Lowering

/-- The size is open or that of a lane, and it is not below a least size. -/
def IsWidened (limits : LaneLimits) (least : Nat) (type : LaneType) : Prop :=
  (type.size = 0 ∨ IsLaneSize limits.register limits.narrow type.size) ∧ least ≤ type.size

variable {limits : LaneLimits} {graph : DependencyGraph} {lowering : Lowering}
  {signature : VectorSignature} {type : LaneType} {pack : Pack} {form : Opcode}

theorem IsWidened.widen (widened : IsWidened limits least type) (fits : lane.Fits limits) :
    IsWidened limits least (type.widen lane.vector.shape) := by
  unfold IsWidened
  rw [size_widen]
  refine ⟨?_, Nat.le_trans widened.2 (le_max_left _ _)⟩
  rcases le_total type.size lane.vector.shape.itemSize.toNat with wider | narrower
  · rw [max_eq_right wider]
    exact fits.isLaneSize
  · rw [max_eq_left narrower]
    exact widened.1

theorem IsWidened.isLaneSize (widened : IsWidened limits least type) :
    IsLaneSize limits.register limits.narrow
        (if type.size = 0 then max limits.smallest 1 else type.size) ∧
      least ≤ if type.size = 0 then max limits.smallest 1 else type.size := by
  split
  next isOpen =>
    rw [max_eq_left limits.isSize.positive]
    exact ⟨limits.isSize, Nat.le_trans widened.2 (isOpen ▸ zero_le _)⟩
  next isKnown => exact ⟨widened.1.resolve_left isKnown, widened.2⟩

theorem isWidened_result (isSignature : form.vectorSignature? = some signature)
    (cast : form.isLaneCast → 8 ≤ limits.register ∧ form ≠ .vecCastFloatToSingle) :
    IsWidened limits (if form.isLaneCast then 8 else 0) (signature.result.getD .unknown) := by
  unfold IsWidened
  rw [size_result_of_vectorSignature? isSignature]
  split
  next isSingle => exact absurd isSingle (cast (isSingle ▸ rfl)).2
  split
  next isCast => exact ⟨.inr ⟨by decide, (cast isCast).1, limits.small⟩, le_refl _⟩
  · exact ⟨.inl rfl, le_refl _⟩

theorem isLaneSize_of_laneType (fitting : IsFitting limits lowering)
    (fits : (graph.op pack.first).FitsRegister limits.target limits.narrow)
    (isForm : limits.target.vectorForm? (graph.op pack.first).opcode = some form)
    (isSignature : form.vectorSignature? = some signature)
    (ofArray : pack.laneType = PackSet.laneTypeAt graph pack.first)
    (isType : lowering.laneType pack graph signature = .ok type) :
    IsLaneSize limits.register limits.narrow type.size ∧
      (if form.isLaneCast then 8 else 0) ≤ type.size := by
  unfold laneType at isType
  split at isType
  next preset isPreset =>
    cases isType
    obtain ⟨isLaneType, isValid⟩ := filter_eq_some_iff.mp isPreset
    rw [ofArray] at isLaneType
    obtain ⟨array, isArray, rfl⟩ :=
      map_eq_some_iff.mp (filter_eq_some_iff.mp isLaneType).1
    refine ⟨fits.items array isArray isValid, ?_⟩
    split
    next isCast => cases (fits.cast form isForm isCast).1.symm.trans isArray
    · exact zero_le _
  · cases fetched : graph.fetch pack.first with
    | error fault =>
      rw [fetched] at isType
      cases isType
    | ok node =>
      rw [fetched] at isType
      cases isType
      rw [fitting.isSmallest]
      refine IsWidened.isLaneSize (foldlRecOn _ _
        (isWidened_result isSignature fun isCast => (fits.cast form isForm isCast).2)
        fun type widened item _ => ?_)
      dsimp only
      generalize (if form.isLaneCast then 8 else 0) = least at widened ⊢
      split
      next lane _ isLane =>
        obtain ⟨box, isHeld⟩ := laneOf?_eq_some isLane
        exact widened.widen (fitting.lanes box lane isHeld)
      · exact widened

theorem length_part_mul_le {registerSize narrow : Nat}
    (isSize : IsLaneSize registerSize narrow type.size) {part : List Nat}
    (isPart : part ∈ parts (lanesPerPart { pack with laneType := some type } type registerSize)
      pack.members) :
    part.length * type.size ≤ registerSize := by
  have few := length_part isPart
  have positive := isSize.positive
  unfold lanesPerPart Pack.isOverloaded at few
  split at few
  · have isSome : 1 ≤ registerSize / type.size :=
      (one_le_div_iff positive).mpr isSize.within
    rw [max_assoc, max_self, max_eq_left isSome] at few
    exact (le_div_iff_mul_le positive).mp few
  next fits =>
    rw [decide_eq_true_eq, not_lt] at fits
    rw [max_eq_left (show 1 ≤ Pack.size _ from Nat.succ_pos _)] at few
    rw [mul_comm]
    exact Nat.le_trans (mul_le_mul_left _ few) fits

/-- A pack whose members are alike is lowered to vectors that fit a register. -/
theorem confines_lowerPack (ops : ∀ node, (graph.op node).FitsRegister limits.target limits.narrow)
    (ofArray : pack.laneType = PackSet.laneTypeAt graph pack.first)
    (alike : ∀ member ∈ pack.members, (graph.op member).opcode = (graph.op pack.first).opcode) :
    Confines limits (lowerPack graph pack) fun _ => True := by
  refine .bind_get fun lowering fitting => bind_lift fun node fetched => ?_
  rw [show node.op = graph.op pack.first from
    congrArg Node.op (fetch_eq_ok fetched), fitting.isTarget, fitting.isRegister]
  dsimp only
  split
  next form isForm =>
    split
    next signature isSignature =>
      refine .bind_lift fun type isType => ?_
      obtain ⟨isLane, atLeast⟩ := isLaneSize_of_laneType fitting (ops pack.first) isForm
        isSignature ofArray isType
      refine (Maintains.forM fun part isPart => ?_).bind fun _ _ => pure trivial
      have fits : FitsPart limits signature type part.length :=
        fitsPart_of_vectorSignature? isSignature isLane (length_part_mul_le isLane isPart)
          fun isCast => ⟨by rwa [if_pos isCast] at atLeast,
            ((ops pack.first).cast form isForm isCast).2.2⟩
      refine confines_lowerPart fits (fun position isPosition => ?_) fun node =>
        (ops node).result
      obtain ⟨isExtension, rfl, isScalar⟩ :=
        resultSizeOperand_of_vectorSignature? isSignature isPosition
      refine ⟨isScalar, (ops _).signExtension ?_⟩
      have isHead : part.headD 0 ∈ pack.members := by
        obtain ⟨notEmpty, within⟩ := mem_parts isPart
        obtain ⟨first, rest, rfl⟩ := exists_cons_of_ne_nil notEmpty
        exact within first mem_cons_self
      rw [alike _ isHead, isForm, isExtension]
    · exact fun _ _ => trivial
  · exact fun _ _ => trivial

/-! ## Schedules -/

section

variable {packs : List Pack}
  (ops : ∀ node, (graph.op node).FitsRegister limits.target limits.narrow)
  (ofArray : ∀ pack ∈ packs, pack.laneType = PackSet.laneTypeAt graph pack.first)
  (alike : ∀ pack ∈ packs, ∀ member ∈ pack.members,
    (graph.op member).opcode = (graph.op pack.first).opcode)

include ops ofArray alike

theorem confines_emitTurn (turn : Turn) :
    Confines limits (emitTurn graph packs turn) fun _ => True := by
  unfold emitTurn
  cases turn with
  | node position =>
    refine .ite (fun _ => pure trivial) fun _ => ?_
    refine (maintains_lowerScalar confines_scalar _).bind fun lowered same =>
      confines_push fun box isBox => ?_
    exact (ops position).result box (same.2.1 ▸ isBox)
  | pack position =>
    dsimp only
    split
    next pack isPack =>
      have isPack := mem_of_getElem? isPack
      exact (confines_lowerPack ops (ofArray pack isPack) (alike pack isPack)).bind
        fun _ _ => pure trivial
    · exact fun _ _ => trivial

/-- Whatever a schedule emits fits a register. -/
theorem confines_emitSchedule : Confines limits (emitSchedule graph packs) fun _ => True := by
  refine (Maintains.forM fun turn _ => confines_emitTurn ops ofArray alike turn.1).bind
    fun _ _ => ?_
  split
  next fault _ =>
    intro lowering fitting
    cases fault <;> exact trivial
  · exact .pure trivial

end

theorem IsEmpty.isFitting (empty : IsEmpty lowering) (isTarget : lowering.target = limits.target)
    (isRegister : lowering.registerSize = limits.register)
    (isSmallest : lowering.smallest = limits.smallest) : IsFitting limits lowering := by
  have noLane : ∀ (box : Box) lane, lowering.lanes[box]? ≠ some lane := by
    intro box lane isLane
    rw [empty.lanes, Std.HashMap.getElem?_empty] at isLane
    cases isLane
  refine ⟨isTarget, isRegister, isSmallest, fun op isOp => ?_,
    fun box lane isLane => absurd isLane (noLane box lane),
    fun box lane isLane => absurd isLane (noLane box lane)⟩
  rw [empty.output] at isOp
  cases isOp

end Lowering

end LinearTrace
