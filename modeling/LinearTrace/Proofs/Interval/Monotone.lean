import LinearTrace.Proofs.Interval.Checked

/-!
# Transfer functions lose no precision

Of narrower operands a transfer function makes a narrower result.  Where the result of the wider
operands is bounded, no end of the narrower ones overflows, and the ends that they lead to are
among the words that the wider result holds.
-/

namespace LinearTrace.Interval

open Word Int64

variable {left right wideLeft wideRight amount inner outer : Interval} {count : Int64}

theorem isWithin_iff : inner.isWithin outer = true ↔
    outer.lower.toInt ≤ inner.lower.toInt ∧ inner.upper.toInt ≤ outer.upper.toInt := by
  rw [isWithin, Bool.and_eq_true, decide_eq_true_eq, decide_eq_true_eq, le_iff_toInt_le,
    le_iff_toInt_le]

theorem isWithin_refl (interval : Interval) : interval.isWithin interval :=
  isWithin_iff.mpr ⟨le_rfl, le_rfl⟩

theorem isWithin_unbounded (interval : Interval) : interval.isWithin unbounded :=
  isWithin_iff.mpr ⟨minValue_le_toInt _, toInt_le _⟩

theorem isWithin_of_mem (lower : inner.lower ∈ outer) (upper : inner.upper ∈ outer) :
    inner.isWithin outer :=
  isWithin_iff.mpr ⟨(mem_iff.mp lower).1, (mem_iff.mp upper).2⟩

/-! ## Ends that may overflow -/

theorem isWithin_ofEnds? {lower upper least greatest : Int} (inOrder : lower ≤ upper)
    (above : least ≤ lower) (below : upper ≤ greatest) :
    (ofEnds? (ofInt? lower) (ofInt? upper)).isWithin (ofEnds? (ofInt? least) (ofInt? greatest)) =
      true := by
  by_cases fits : -2 ^ 63 ≤ least ∧ greatest < 2 ^ 63
  · obtain ⟨first, isFirst⟩ := exists_toInt lower (by omega) (by omega)
    obtain ⟨last, isLast⟩ := exists_toInt upper (by omega) (by omega)
    obtain ⟨wideFirst, isWideFirst⟩ := exists_toInt least fits.1 (by omega)
    obtain ⟨wideLast, isWideLast⟩ := exists_toInt greatest (by omega) fits.2
    rw [ofEnds?_of_toInt isFirst isLast, ofEnds?_of_toInt isWideFirst isWideLast, isWithin_iff,
      isFirst, isLast, isWideFirst, isWideLast]
    exact ⟨above, below⟩
  · rw [ofEnds?_of_overflow fits]
    exact isWithin_unbounded _

/-! ## Each transfer function -/

theorem fillLowBits_le {x y : Int64} (atMost : x.toInt ≤ y.toInt) :
    (fillLowBits x).toInt ≤ (fillLowBits y).toInt := by
  have nonnegative (word : Int64) : 0 ≤ (fillLowBits word).toInt := by
    rcases Int.lt_or_le 0 word.toInt with positive | nonpositive
    · have power : (0 : Int) < 2 ^ (Nat.log2 (pattern word) + 1) := Int.pow_pos (by decide)
      rw [toInt_fillLowBits positive]
      omega
    · rw [fillLowBits, if_pos (le_iff_toInt_le.mpr nonpositive)]
      rfl
  rcases Int.lt_or_le 0 x.toInt with positive | nonpositive
  · have nonzero : pattern x ≠ 0 := by
      have value := toInt_eq_pattern (Int.le_of_lt positive)
      omega
    have powers : (2 : Int) ^ (Nat.log2 (pattern x) + 1) ≤ 2 ^ (Nat.log2 (pattern y) + 1) :=
      pow_le_pow_right₀ (by decide)
        ((Nat.log2_lt nonzero).mpr (pattern_lt_of_le (Int.le_of_lt positive) atMost))
    rw [toInt_fillLowBits positive, toInt_fillLowBits (by omega)]
    omega
  · have filled : fillLowBits x = 0 := if_pos (le_iff_toInt_le.mpr nonpositive)
    rw [filled]
    exact nonnegative y

theorem constant?_of_isWithin (ordered : inner.IsOrdered) (within : inner.isWithin outer)
    (known : outer.constant? = some count) : inner.constant? = some count := by
  have lower := eq_of_constant? known (mem_of_isWithin within ordered.lower_mem)
  have upper := eq_of_constant? known (mem_of_isWithin within ordered.upper_mem)
  rw [constant?, isConstant, lower, upper, beq_self_eq_true, if_pos rfl]

theorem forConstant_eq_unbounded {suits : Int64 → Prop} [DecidablePred suits]
    {bounds : Int64 → Interval} (none : ¬ ∃ count, amount.constant? = some count ∧ suits count) :
    amount.forConstant suits bounds = unbounded := by
  unfold forConstant
  split
  next count isConstant => exact if_neg fun suited => none ⟨count, isConstant, suited⟩
  · rfl

theorem isWithin_forConstant {suits : Int64 → Prop} [DecidablePred suits]
    {bounds wideBounds : Int64 → Interval} (ordered : right.IsOrdered)
    (within : right.isWithin wideRight)
    (each : ∀ count, suits count → wideRight.constant? = some count →
      (bounds count).isWithin (wideBounds count)) :
    (right.forConstant suits bounds).isWithin (wideRight.forConstant suits wideBounds) := by
  unfold forConstant
  cases known : wideRight.constant? with
  | none => exact isWithin_unbounded _
  | some count =>
    rw [constant?_of_isWithin ordered within known]
    dsimp only
    split
    · exact each count ‹_› known
    · exact isWithin_refl _

section

variable (ordered : left.IsOrdered) (rightOrdered : right.IsOrdered)
  (within : left.isWithin wideLeft) (rightWithin : right.isWithin wideRight)

theorem isNonnegative_of_isWithin (within : left.isWithin wideLeft)
    (known : wideLeft.isNonnegative) : left.isNonnegative := by
  rw [isWithin_iff] at within
  rw [isNonnegative, decide_eq_true_eq, le_iff_toInt_le] at known ⊢
  omega

theorem isWithin_neg (ordered : left.IsOrdered) (within : left.isWithin wideLeft) :
    left.neg.isWithin wideLeft.neg := by
  have inOrder := ordered.toInt_le
  rw [neg_eq_ofEnds? ordered,
    neg_eq_ofEnds? (isOrdered_of_mem (mem_of_isWithin within ordered.lower_mem))]
  rw [isWithin_iff] at within
  exact isWithin_ofEnds? (by omega) (by omega) (by omega)

include within rightWithin

theorem fillLowBits_max_le : (fillLowBits (max left.upper right.upper)).toInt ≤
    (fillLowBits (max wideLeft.upper wideRight.upper)).toInt := by
  apply fillLowBits_le
  rw [isWithin_iff] at within rightWithin
  rw [toInt_max, toInt_max]
  omega

theorem isWithin_ite_isNonnegative (bounded : inner.isWithin outer) :
    (if left.isNonnegative && right.isNonnegative then inner else unbounded).isWithin
      (if wideLeft.isNonnegative && wideRight.isNonnegative then outer else unbounded) = true := by
  by_cases known : (wideLeft.isNonnegative && wideRight.isNonnegative) = true
  · obtain ⟨leftKnown, rightKnown⟩ := Bool.and_eq_true_iff.mp known
    rw [if_pos known, isNonnegative_of_isWithin within leftKnown,
      isNonnegative_of_isWithin rightWithin rightKnown, Bool.and_self, if_pos rfl]
    exact bounded
  · rw [if_neg known]
    exact isWithin_unbounded _

theorem isWithin_or : (left.or right).isWithin (wideLeft.or wideRight) := by
  have filled := fillLowBits_max_le within rightWithin
  refine isWithin_ite_isNonnegative within rightWithin (isWithin_iff.mpr ⟨?_, filled⟩)
  rw [isWithin_iff] at within rightWithin
  rw [toInt_max, toInt_max]
  omega

theorem isWithin_xor : (left.xor right).isWithin (wideLeft.xor wideRight) :=
  isWithin_ite_isNonnegative within rightWithin
    (isWithin_iff.mpr ⟨le_rfl, fillLowBits_max_le within rightWithin⟩)

include rightOrdered

theorem isWithin_modulo : (left.modulo right).isWithin (wideLeft.modulo wideRight) := by
  refine isWithin_forConstant rightOrdered rightWithin fun count positive _ => ?_
  have range := toInt_range count
  rw [lt_iff_toInt_lt] at positive
  change 0 < count.toInt at positive
  have before := toInt_sub_one positive
  have negated : (-(count - 1)).toInt = 1 - count.toInt := by
    rw [toInt_neg, before, bmod_of_range (by omega) (by omega)]
    omega
  have known := isNonnegative_of_isWithin within
  rw [isWithin_iff] at within
  cases wideKnown : wideLeft.isNonnegative with
  | true =>
    rw [known wideKnown, if_pos rfl, if_pos rfl, isWithin_iff, toInt_min, toInt_min]
    exact ⟨le_rfl, by omega⟩
  | false =>
    rw [if_neg Bool.false_ne_true]
    cases left.isNonnegative with
    | true =>
      rw [if_pos rfl, isWithin_iff, toInt_min, before, negated]
      change 1 - count.toInt ≤ 0 ∧ _
      omega
    | false => exact isWithin_refl _

theorem isWithin_signExtend : (left.signExtend right).isWithin (wideLeft.signExtend wideRight) := by
  refine isWithin_forConstant rightOrdered rightWithin fun count _ _ => ?_
  dsimp only
  split
  · split
    · exact within
    · assumption
  rename_i notWithin
  split
  next wideWithin =>
    rw [isWithin_iff] at within wideWithin notWithin
    omega
  · exact isWithin_refl _

include ordered

theorem isWithin_add : (left.add right).isWithin (wideLeft.add wideRight) := by
  have inOrder := ordered.toInt_le
  have rightInOrder := rightOrdered.toInt_le
  rw [isWithin_iff] at within rightWithin
  exact isWithin_ofEnds? (by omega) (by omega) (by omega)

theorem isWithin_sub : (left.sub right).isWithin (wideLeft.sub wideRight) := by
  have inOrder := ordered.toInt_le
  have rightInOrder := rightOrdered.toInt_le
  rw [isWithin_iff] at within rightWithin
  exact isWithin_ofEnds? (by omega) (by omega) (by omega)

theorem isWithin_mul : (left.mul right).isWithin (wideLeft.mul wideRight) := by
  have between {x y : Int64} (xMem : x ∈ left) (yMem : y ∈ right) :=
    product_between (mem_of_isWithin within xMem) (mem_of_isWithin rightWithin yMem)
  have first := between ordered.lower_mem rightOrdered.lower_mem
  have second := between ordered.lower_mem rightOrdered.upper_mem
  have third := between ordered.upper_mem rightOrdered.lower_mem
  have fourth := between ordered.upper_mem rightOrdered.upper_mem
  rw [mul_eq_ofEnds?, mul_eq_ofEnds?]
  exact isWithin_ofEnds? (by omega) (by omega) (by omega)

theorem isWithin_leftShift : (left.leftShift right).isWithin (wideLeft.leftShift wideRight) := by
  have wideOrdered := isOrdered_of_mem (mem_of_isWithin within ordered.lower_mem)
  refine isWithin_forConstant rightOrdered rightWithin fun count inWord _ => ?_
  rw [le_iff_toInt_le, le_iff_toInt_le] at inWord
  have positive : (0 : Int) ≤ 2 ^ count.toInt.toNat := Int.le_of_lt (Int.pow_pos (by decide))
  rw [shiftedEnds_eq_ofEnds? ordered inWord, shiftedEnds_eq_ofEnds? wideOrdered inWord]
  rw [isWithin_iff] at within
  exact isWithin_ofEnds? (Int.mul_le_mul_of_nonneg_right ordered.toInt_le positive)
    (Int.mul_le_mul_of_nonneg_right within.1 positive)
    (Int.mul_le_mul_of_nonneg_right within.2 positive)

theorem isWithin_and : (left.and right).isWithin (wideLeft.and wideRight) := by
  have zero : (0 : Int64).toInt = 0 := rfl
  have leftKnown := isNonnegative_of_isWithin within
  have rightKnown := isNonnegative_of_isWithin rightWithin
  have lower := mem_and ordered.lower_mem rightOrdered.lower_mem
  rw [isWithin_iff] at within rightWithin
  cases wideLeftKnown : wideLeft.isNonnegative <;> cases wideRightKnown : wideRight.isNonnegative
  · have isUnbounded : wideLeft.and wideRight = unbounded := by
      rw [and, wideLeftKnown, wideRightKnown]
    rw [isUnbounded]
    exact isWithin_unbounded _
  · cases isLeft : left.isNonnegative <;>
      simp only [and, wideLeftKnown, wideRightKnown, rightKnown wideRightKnown, isLeft,
        isWithin_iff, toInt_min] <;> omega
  · cases isRight : right.isNonnegative <;>
      simp only [and, wideLeftKnown, wideRightKnown, leftKnown wideLeftKnown, isRight,
        isWithin_iff, toInt_min] <;> omega
  · simp only [and, wideLeftKnown, wideRightKnown, leftKnown wideLeftKnown,
      rightKnown wideRightKnown, isWithin_iff, toInt_min]
    omega

omit within rightWithin in
theorem isWithin_of_shiftRight (inside : ¬ (right.lower < 0 ∨ 63 < right.upper))
    (each : ∀ x ∈ left, ∀ y ∈ right, x >>> y ∈ outer) : (left.rightShift right).isWithin outer := by
  have first := mem_iff.mp (each _ ordered.lower_mem _ rightOrdered.lower_mem)
  have second := mem_iff.mp (each _ ordered.lower_mem _ rightOrdered.upper_mem)
  have third := mem_iff.mp (each _ ordered.upper_mem _ rightOrdered.lower_mem)
  have fourth := mem_iff.mp (each _ ordered.upper_mem _ rightOrdered.upper_mem)
  rw [rightShift, if_neg inside, isWithin_iff, toInt_min, toInt_max]
  omega

theorem isWithin_rightShift : (left.rightShift right).isWithin (wideLeft.rightShift wideRight) := by
  by_cases outside : wideRight.lower < 0 ∨ 63 < wideRight.upper
  · rw [rightShift.eq_1 wideLeft, if_pos outside]
    exact isWithin_unbounded _
  refine isWithin_of_shiftRight ordered rightOrdered ?_ fun x xMem y yMem =>
    mem_rightShift (mem_of_isWithin within xMem) (mem_of_isWithin rightWithin yMem)
  rw [isWithin_iff] at rightWithin
  rw [lt_iff_toInt_lt, lt_iff_toInt_lt] at outside ⊢
  omega

theorem isWithin_uintRightShift :
    (left.uintRightShift right).isWithin (wideLeft.uintRightShift wideRight) := by
  cases known : wideLeft.isNonnegative with
  | true =>
    rw [uintRightShift, uintRightShift, if_pos known,
      if_pos (isNonnegative_of_isWithin within known)]
    exact isWithin_rightShift ordered rightOrdered within rightWithin
  | false =>
    cases isNonnegative : left.isNonnegative with
    | false =>
      rw [uintRightShift, uintRightShift, known, isNonnegative]
      exact isWithin_forConstant rightOrdered rightWithin fun count _ _ => isWithin_refl _
    | true =>
      -- The narrower words are shifted as signed ones, with the same result.
      rw [uintRightShift, if_pos isNonnegative]
      by_cases suited : ∃ count, wideRight.constant? = some count ∧ 1 ≤ count ∧ count ≤ 63
      · obtain ⟨count, isConstant, inWord⟩ := suited
        rw [le_iff_toInt_le, le_iff_toInt_le] at inWord
        change 1 ≤ count.toInt ∧ count.toInt ≤ 63 at inWord
        have isCount {y : Int64} (yMem : y ∈ right) : y = count :=
          eq_of_constant? isConstant (mem_of_isWithin rightWithin yMem)
        refine isWithin_of_shiftRight ordered rightOrdered ?_ fun x xMem y yMem => ?_
        · rw [isCount rightOrdered.lower_mem, isCount rightOrdered.upper_mem,
            lt_iff_toInt_lt, lt_iff_toInt_lt]
          change ¬ (count.toInt < 0 ∨ 63 < count.toInt)
          omega
        · cases isCount yMem
          rw [← uintShiftRight_eq_shiftRight (nonneg_of_isNonnegative isNonnegative xMem)
            (by omega) (by omega)]
          exact mem_uintRightShift (mem_of_isWithin within xMem) (mem_of_isWithin rightWithin yMem)
            (by omega) (by omega)
      · have isUnbounded : wideLeft.uintRightShift wideRight = unbounded := by
          rw [uintRightShift, known, if_neg Bool.false_ne_true]
          exact forConstant_eq_unbounded suited
        rw [isUnbounded]
        exact isWithin_unbounded _

theorem isWithin_floorDiv : (left.floorDiv right).isWithin (wideLeft.floorDiv wideRight) := by
  refine isWithin_forConstant rightOrdered rightWithin fun count positive isConstant => ?_
  have divided {x : Int64} (xMem : x ∈ left) : x / count ∈ wideLeft.floorDiv wideRight := by
    refine mem_floorDiv (mem_of_isWithin within xMem) ?_
    have inRight := mem_of_isWithin rightWithin rightOrdered.lower_mem
    exact eq_of_constant? isConstant inRight ▸ inRight
  rw [floorDiv, isConstant] at divided
  dsimp only at divided
  rw [if_pos positive] at divided
  exact isWithin_of_mem (divided ordered.lower_mem) (divided ordered.upper_mem)

end

/-! ## All of them -/

/-- Of narrower operands every transfer function makes a narrower result. -/
theorem isWithin_transfer (ordered : left.IsOrdered) (rightOrdered : right.IsOrdered)
    (within : left.isWithin wideLeft = true) (rightWithin : right.isWithin wideRight = true) :
    ∀ transfer ∈ transfers,
      (transfer.result left right).isWithin (transfer.result wideLeft wideRight) = true :=
  fun _ member => transfer_cases member
    ⟨isWithin_add ordered rightOrdered within rightWithin,
      isWithin_sub ordered rightOrdered within rightWithin,
      isWithin_mul ordered rightOrdered within rightWithin,
      isWithin_neg ordered within,
      isWithin_and ordered rightOrdered within rightWithin,
      isWithin_or within rightWithin,
      isWithin_xor within rightWithin,
      isWithin_leftShift ordered rightOrdered within rightWithin,
      isWithin_rightShift ordered rightOrdered within rightWithin,
      isWithin_uintRightShift ordered rightOrdered within rightWithin,
      isWithin_floorDiv ordered rightOrdered within rightWithin,
      isWithin_modulo rightOrdered within rightWithin,
      isWithin_signExtend rightOrdered within rightWithin⟩

/-- Products of wider intervals that do not overflow. -/
theorem isWithin_transfer_products :
    (⟨1, 2⟩ : Interval).IsOrdered ∧ (⟨-3, 3⟩ : Interval).IsOrdered ∧
      (⟨1, 2⟩ : Interval).isWithin ⟨0, 5⟩ ∧ (⟨-3, 3⟩ : Interval).isWithin ⟨-4, 4⟩ ∧
      ((⟨1, 2⟩ : Interval).mul ⟨-3, 3⟩).isWithin ⟨-20, 20⟩ := by
  have ordered : (⟨1, 2⟩ : Interval).IsOrdered ∧ (⟨-3, 3⟩ : Interval).IsOrdered := by decide
  have within : (⟨1, 2⟩ : Interval).isWithin ⟨0, 5⟩ = true := by decide
  have rightWithin : (⟨-3, 3⟩ : Interval).isWithin ⟨-4, 4⟩ = true := by decide
  have value : (⟨0, 5⟩ : Interval).mul ⟨-4, 4⟩ = ⟨-20, 20⟩ := by decide
  have product := isWithin_transfer ordered.1 ordered.2 within rightWithin
    ⟨.intMul, 2, mul, mul?⟩ (by simp [transfers])
  dsimp only at product
  rw [value] at product
  exact ⟨ordered.1, ordered.2, within, rightWithin, product⟩

end LinearTrace.Interval
