import Mathlib.Tactic.Linarith
import LinearTrace.Word

/-!
# Words as integers and as bit patterns

A word is read in two ways: as an integer between `-2 ^ 63` and `2 ^ 63 - 1`, and
as a pattern of 64 bits.  The lemmas here translate the word operations of a
trace into arithmetic on the one view or the other.
-/

namespace LinearTrace.Word

open Int64 Nat

variable {value : Int} {word left right amount mask bound : Int64}

/-- The pattern of a word as a natural number. -/
def pattern (word : Int64) : Nat :=
  word.toUInt64.toNat

theorem toInt_range (word : Int64) : -2 ^ 63 ≤ word.toInt ∧ word.toInt < 2 ^ 63 :=
  ⟨word.le_toInt, word.toInt_lt⟩

theorem toInt_of_ofInt? (fits : ofInt? value = some word) : word.toInt = value := by
  unfold ofInt? at fits
  split at fits
  next inRange =>
    have least : minValue.toInt = -2 ^ 63 := rfl
    have greatest : maxValue.toInt = 2 ^ 63 - 1 := rfl
    cases fits
    exact toInt_ofInt_of_le (by omega) (by omega)
  · cases fits

theorem ofInt?_toInt (word : Int64) : ofInt? word.toInt = some word := by
  unfold ofInt?
  have range := toInt_range word
  have least : minValue.toInt = -2 ^ 63 := rfl
  have greatest : maxValue.toInt = 2 ^ 63 - 1 := rfl
  rw [if_pos (by omega), ofInt_toInt]

theorem ofInt?_eq_some (same : word.toInt = value) : ofInt? value = some word := by
  rw [← same, ofInt?_toInt]

theorem toInt_of_add? {sum : Int64} (fits : add? left right = some sum) :
    sum.toInt = left.toInt + right.toInt :=
  toInt_of_ofInt? fits

theorem toInt_of_sub? {difference : Int64} (fits : sub? left right = some difference) :
    difference.toInt = left.toInt - right.toInt :=
  toInt_of_ofInt? fits

theorem toInt_of_mul? {product : Int64} (fits : mul? left right = some product) :
    product.toInt = left.toInt * right.toInt :=
  toInt_of_ofInt? fits

theorem eq_neg_of_neg? {negation : Int64} (fits : neg? word = some negation) :
    negation = -word := by
  have value : negation.toInt = -word.toInt := toInt_of_ofInt? fits
  have range := toInt_range negation
  apply toInt.inj
  rw [toInt_neg, Int.bmod_eq_of_le (by omega) (by omega), value]

theorem bmod_of_range (lower : -2 ^ 63 ≤ value) (upper : value < 2 ^ 63) :
    value.bmod (2 ^ 64) = value :=
  Int.bmod_eq_of_le (by omega) (by omega)

theorem toInt_min (left right : Int64) : (min left right).toInt = min left.toInt right.toInt := by
  change (if left ≤ right then left else right).toInt = _
  split
  next le => rw [Int.min_eq_left (le_iff_toInt_le.mp le)]
  next notLe =>
    rw [Int64.not_le, Int64.lt_iff_toInt_lt] at notLe
    rw [Int.min_eq_right (Int.le_of_lt notLe)]

theorem toInt_max (left right : Int64) : (max left right).toInt = max left.toInt right.toInt := by
  change (if left ≤ right then right else left).toInt = _
  split
  next le => rw [Int.max_eq_right (le_iff_toInt_le.mp le)]
  next notLe =>
    rw [Int64.not_le, Int64.lt_iff_toInt_lt] at notLe
    rw [Int.max_eq_left (Int.le_of_lt notLe)]

/-! ## Shifts -/

theorem shiftAmount (lower : 0 ≤ amount.toInt) (upper : amount.toInt < 64) :
    (amount.toBitVec.smod 64).toNat = amount.toInt.toNat := by
  have reduced : (amount.toBitVec.smod 64).toInt = amount.toInt := by
    rw [BitVec.toInt_smod, Int64.toInt_toBitVec]
    change amount.toInt.fmod 64 = amount.toInt
    rw [Int.fmod_eq_emod_of_nonneg _ (by decide), Int.emod_eq_of_lt lower upper]
  rw [← reduced] at lower upper ⊢
  have bounded := (amount.toBitVec.smod 64).isLt
  rw [BitVec.toInt_eq_toNat_cond] at lower upper ⊢
  split
  · omega
  next large =>
    rw [if_neg large] at lower
    omega

theorem toInt_shiftLeft (word : Int64) (lower : 0 ≤ amount.toInt) (upper : amount.toInt < 64) :
    (word <<< amount).toInt = (word.toInt * 2 ^ amount.toInt.toNat).bmod (2 ^ 64) := by
  have wrapped : word.toInt = (word.toBitVec.toNat : Int).bmod (2 ^ 64) := by
    rw [← Int64.toInt_toBitVec, BitVec.toInt_eq_toNat_bmod]
  rw [← Int64.toInt_toBitVec, Int64.toBitVec_shiftLeft, BitVec.shiftLeft_eq',
    shiftAmount lower upper, BitVec.toInt_shiftLeft, wrapped, Int.bmod_mul_bmod,
    shiftLeft_eq]
  simp only [Int.natCast_mul, Int.natCast_pow]
  rfl

theorem toInt_shiftRight (word : Int64) (lower : 0 ≤ amount.toInt) (upper : amount.toInt < 64) :
    (word >>> amount).toInt = word.toInt / 2 ^ amount.toInt.toNat := by
  rw [← Int64.toInt_toBitVec, Int64.toBitVec_shiftRight, BitVec.sshiftRight_eq',
    shiftAmount lower upper, BitVec.toInt_sshiftRight, Int.shiftRight_eq_div_pow]
  rfl

/-- A left shift that is undone by the right shift multiplies without wrapping. -/
theorem toInt_shiftLeft_of_exact (lower : 0 ≤ amount.toInt) (upper : amount.toInt < 64)
    (exact : (word <<< amount) >>> amount = word) :
    (word <<< amount).toInt = word.toInt * 2 ^ amount.toInt.toNat := by
  have undone : (word <<< amount).toInt / 2 ^ amount.toInt.toNat = word.toInt := by
    rw [← toInt_shiftRight _ lower upper, exact]
  have divides : (2 ^ amount.toInt.toNat : Int) ∣ (word <<< amount).toInt := by
    rw [toInt_shiftLeft _ lower upper]
    have modulus : (2 ^ amount.toInt.toNat : Int) ∣ ((2 ^ 64 : Nat) : Int) :=
      pow_dvd_pow 2 (by omega)
    have difference := modulus.trans
      (Int.dvd_self_sub_bmod (x := word.toInt * 2 ^ amount.toInt.toNat) (m := 2 ^ 64))
    exact (Int.dvd_iff_dvd_of_dvd_sub difference).mp (Int.dvd_mul_left _ _)
  rw [← undone, Int.ediv_mul_cancel divides]

/-! ## Powers of two -/

theorem pattern_eq_zero_iff : pattern word = 0 ↔ word = 0 := by
  constructor
  · intro zero
    have unsigned : word.toUInt64 = 0 := UInt64.toNat_inj.mp zero
    have round : word = (0 : UInt64).toInt64 := by rw [← unsigned, toInt64_toUInt64]
    exact round
  · rintro rfl
    rfl

theorem pattern_of_isPowerOfTwo (power : isPowerOfTwo word) :
    pattern word = 2 ^ Nat.log2 (pattern word) := by
  simp only [isPowerOfTwo, Bool.and_eq_true, bne_iff_ne, beq_iff_eq] at power
  obtain ⟨nonzero, single⟩ := power
  have positive : pattern word ≠ 0 := fun zero => nonzero (pattern_eq_zero_iff.mp zero)
  have masked : pattern word &&& (pattern word - 1) = 0 := by
    have patterns := congrArg pattern single
    have below : pattern (word - 1) = pattern word - 1 := by
      have bounded : pattern word < 2 ^ 64 := word.toUInt64.toNat_lt
      change (word.toUInt64 - 1).toNat = _
      rw [UInt64.toNat_sub]
      change (2 ^ 64 - 1 + pattern word) % 2 ^ 64 = pattern word - 1
      omega
    rw [← below]
    exact patterns
  obtain ⟨exponent, eq⟩ :=
    (and_sub_one_eq_zero_iff_isPowerOfTwo positive).mp masked
  rw [eq, log2_two_pow]

theorem toInt_eq_pattern_bmod (word : Int64) : word.toInt = (pattern word : Int).bmod (2 ^ 64) := by
  rw [← Int64.toInt_toBitVec, BitVec.toInt_eq_toNat_bmod]
  rfl

theorem pattern_lt (word : Int64) : pattern word < 2 ^ 64 :=
  word.toUInt64.toNat_lt

theorem toInt_eq_pattern (nonnegative : 0 ≤ word.toInt) : word.toInt = pattern word := by
  have bounded := pattern_lt word
  have wrapped := toInt_eq_pattern_bmod word
  have range := toInt_range word
  rw [wrapped, Int.bmod_def] at nonnegative ⊢
  split
  · omega
  next large =>
    rw [if_neg large] at nonnegative
    omega

theorem toInt_exponent (power : isPowerOfTwo word) :
    (exponent word).toInt = Nat.log2 (pattern word) ∧ Nat.log2 (pattern word) < 64 := by
  have below : Nat.log2 (pattern word) < 64 := by
    have bounded := pattern_lt word
    rw [pattern_of_isPowerOfTwo power] at bounded
    exact (Nat.pow_lt_pow_iff_right (by decide)).mp bounded
  exact ⟨toInt_ofNat_of_lt (by change Nat.log2 (pattern word) < _; omega), below⟩

/-- A product by a power of two is a left shift, wrapping included. -/
theorem mul_eq_shiftLeft (word : Int64) {factor : Int64} (power : isPowerOfTwo factor) :
    word * factor = word <<< exponent factor := by
  obtain ⟨value, below⟩ := toInt_exponent power
  apply toInt.inj
  rw [toInt_shiftLeft _ (by omega) (by omega), toInt_mul, toInt_eq_pattern_bmod factor,
    Int.mul_bmod_bmod, pattern_of_isPowerOfTwo power, value, Int.toNat_natCast]
  simp only [Int.natCast_pow]
  rfl

/-- Dividing a word that is not negative by a positive power of two is a right shift. -/
theorem div_eq_shiftRight {divisor : Int64} (nonnegative : 0 ≤ word.toInt)
    (positive : 0 < divisor.toInt) (power : isPowerOfTwo divisor) :
    word / divisor = word >>> exponent divisor := by
  obtain ⟨value, below⟩ := toInt_exponent power
  have notMinusOne : divisor ≠ -1 := by
    rintro rfl
    exact absurd positive (by decide)
  have divisorValue : divisor.toInt = 2 ^ Nat.log2 (pattern divisor) := by
    rw [toInt_eq_pattern (by omega), pattern_of_isPowerOfTwo power, log2_two_pow]
    simp only [Int.natCast_pow]
    rfl
  apply toInt.inj
  rw [toInt_div_of_ne_right _ _ notMinusOne, toInt_shiftRight _ (by omega) (by omega),
    Int.tdiv_eq_ediv_of_nonneg nonnegative, value, Int.toNat_natCast, divisorValue]

/-! ## Bit patterns -/

theorem pattern_and (left right : Int64) :
    pattern (left &&& right) = pattern left &&& pattern right := by
  simp only [pattern, toUInt64_and, UInt64.toNat_and]

theorem pattern_or (left right : Int64) :
    pattern (left ||| right) = pattern left ||| pattern right := by
  simp only [pattern, toUInt64_or, UInt64.toNat_or]

theorem pattern_xor (left right : Int64) :
    pattern (left ^^^ right) = pattern left ^^^ pattern right := by
  simp only [pattern, toUInt64_xor, UInt64.toNat_xor]

theorem pattern_inj (same : pattern left = pattern right) : left = right := by
  have unsigned : left.toUInt64 = right.toUInt64 := UInt64.toNat_inj.mp same
  rw [← toInt64_toUInt64 left, unsigned, toInt64_toUInt64]

theorem toInt_of_pattern_lt (small : pattern word < 2 ^ 63) : word.toInt = pattern word := by
  rw [toInt_eq_pattern_bmod]
  exact bmod_of_range (by omega) (by omega)

theorem pattern_lt_of_nonneg (nonnegative : 0 ≤ word.toInt) : pattern word < 2 ^ 63 := by
  have value := toInt_eq_pattern nonnegative
  have range := toInt_range word
  omega

theorem and_range_left (right : Int64) (nonnegative : 0 ≤ left.toInt) :
    0 ≤ (left &&& right).toInt ∧ (left &&& right).toInt ≤ left.toInt := by
  have bounded : pattern (left &&& right) ≤ pattern left := by
    rw [pattern_and]
    exact and_le_left
  have small := pattern_lt_of_nonneg nonnegative
  rw [toInt_of_pattern_lt (by omega), toInt_eq_pattern nonnegative]
  omega

theorem and_range_right (left : Int64) (nonnegative : 0 ≤ right.toInt) :
    0 ≤ (left &&& right).toInt ∧ (left &&& right).toInt ≤ right.toInt := by
  rw [Int64.and_comm]
  exact and_range_left left nonnegative

theorem exists_low_run (number : Nat) :
    ∃ length high, number = high * 2 ^ (length + 1) + (2 ^ length - 1) := by
  induction number using Nat.strongRecOn with
  | ind number ih =>
    rcases even_or_odd' number with ⟨half, rfl | rfl⟩
    · exact ⟨0, half, by omega⟩
    obtain ⟨length, high, eq⟩ := ih half (by omega)
    refine ⟨length + 1, high, ?_⟩
    have positive : 0 < 2 ^ length := Nat.pow_pos (by decide)
    have doubled : high * 2 ^ (length + 1 + 1) = 2 * (high * 2 ^ (length + 1)) := by
      rw [Nat.pow_succ 2 (length + 1), ← mul_assoc, Nat.mul_comm]
    have power : 2 ^ (length + 1) = 2 * 2 ^ length := by
      rw [Nat.pow_succ, Nat.mul_comm]
    omega

theorem testBit_low_run (high length position : Nat) :
    (high * 2 ^ (length + 1) + (2 ^ length - 1)).testBit position =
      if position < length + 1 then decide (position < length)
      else high.testBit (position - (length + 1)) := by
  have below : 2 ^ length - 1 < 2 ^ (length + 1) := by
    have positive : 0 < 2 ^ length := Nat.pow_pos (by decide)
    rw [Nat.pow_succ]
    omega
  rw [Nat.mul_comm, Nat.testBit_two_pow_mul_add _ below, testBit_two_pow_sub_one]

theorem testBit_after_low_run (high length position : Nat) :
    (high * 2 ^ (length + 1) + 2 ^ length).testBit position =
      if position < length + 1 then decide (length = position)
      else high.testBit (position - (length + 1)) := by
  have below : 2 ^ length < 2 ^ (length + 1) := Nat.pow_lt_pow_right (by decide) (by omega)
  rw [Nat.mul_comm, Nat.testBit_two_pow_mul_add _ below, Nat.testBit_two_pow]

/-- The low ones of a word other than `-1` form a run of ones that the word itself starts with. -/
theorem pattern_lowOnes (notAll : mask ≠ -1) : ∃ length, pattern (lowOnes mask) = 2 ^ length - 1 ∧
      ∀ position < length, (pattern mask).testBit position := by
  obtain ⟨length, high, eq⟩ := exists_low_run (pattern mask)
  have bounded := pattern_lt mask
  have positive : 0 < 2 ^ length := Nat.pow_pos (by decide)
  have notFull : pattern mask ≠ 2 ^ 64 - 1 := fun full => notAll (pattern_inj full)
  have successor : pattern (mask + 1) = high * 2 ^ (length + 1) + 2 ^ length := by
    change (mask.toUInt64 + 1).toNat = _
    rw [UInt64.toNat_add]
    change (pattern mask + 1) % 2 ^ 64 = _
    omega
  have complement : pattern (~~~(mask + 1)) = 2 ^ 64 - (pattern (mask + 1) + 1) := by
    change (~~~(mask + 1).toUInt64).toNat = _
    rw [UInt64.toNat_not]
    change 2 ^ 64 - 1 - pattern (mask + 1) = _
    omega
  have short : length < 64 := by
    have within := pattern_lt (mask + 1)
    exact (Nat.pow_lt_pow_iff_right (by decide : 1 < 2)).mp (by omega)
  refine ⟨length, ?_, ?_⟩
  · apply eq_of_testBit_eq
    intro position
    rw [lowOnes, pattern_and, complement, testBit_and,
      testBit_two_pow_sub_succ (pattern_lt _), successor, testBit_after_low_run, eq,
      testBit_low_run, testBit_two_pow_sub_one]
    rcases lt_trichotomy position length with below | rfl | above
    · rw [if_pos (by omega), if_pos (by omega)]
      simp only [below, decide_true, Bool.true_and, Bool.and_eq_true, decide_eq_true_eq,
        Bool.not_eq_true', decide_eq_false_iff_not]
      omega
    · rw [if_pos (by omega)]
      simp
    · rw [if_neg (by omega), if_neg (by omega)]
      -- Above the run the word and its successor have the same bits.
      have notBelow : ¬ position < length := by omega
      cases high.testBit (position - (length + 1)) <;> simp [notBelow]
  · intro position below
    rw [eq, testBit_low_run, if_pos (by omega), decide_eq_true below]

/-- A mask whose low ones cover a word that is not negative keeps the word. -/
theorem and_eq_of_le_lowOnes (nonnegative : 0 ≤ word.toInt)
    (covered : word.toInt ≤ (lowOnes mask).toInt) : word &&& mask = word := by
  by_cases all : mask = -1
  · subst all
    exact and_neg_one
  obtain ⟨length, run, ones⟩ := pattern_lowOnes all
  have maskNonnegative : 0 ≤ (lowOnes mask).toInt := Int.le_trans nonnegative covered
  have small : pattern word < 2 ^ length := by
    rw [toInt_eq_pattern nonnegative, toInt_eq_pattern maskNonnegative, run] at covered
    have positive : 0 < 2 ^ length := Nat.pow_pos (by decide)
    omega
  apply pattern_inj
  rw [pattern_and]
  apply eq_of_testBit_eq
  intro position
  rw [testBit_and]
  by_cases below : position < length
  · rw [ones position below, Bool.and_true]
  · have beyond : pattern word < 2 ^ position :=
      Nat.lt_of_lt_of_le small (Nat.pow_le_pow_right (by decide) (by omega))
    rw [Nat.testBit_lt_two_pow beyond, Bool.false_and]

/-- The filled word of a positive bound is all ones up to its highest bit. -/
theorem toInt_fillLowBits (positive : 0 < bound.toInt) :
    (fillLowBits bound).toInt = 2 ^ (Nat.log2 (pattern bound) + 1) - 1 := by
  have small := pattern_lt_of_nonneg (Int.le_of_lt positive)
  have nonzero : pattern bound ≠ 0 := by
    have value := toInt_eq_pattern (Int.le_of_lt positive)
    omega
  have highest : Nat.log2 (pattern bound) < 63 := (log2_lt nonzero).mpr small
  have power : 2 ^ (Nat.log2 (pattern bound) + 1) ≤ 2 ^ 63 :=
    Nat.pow_le_pow_right (by decide) (by omega)
  have notNonpositive : ¬ bound ≤ 0 := by
    rw [Int64.not_le, Int64.lt_iff_toInt_lt]
    exact positive
  have clamped : bound.toNatClampNeg = pattern bound := by
    have value := toInt_eq_pattern (Int.le_of_lt positive)
    rw [← toNat_toInt, value, Int.toNat_natCast]
  have one : 0 < 2 ^ (Nat.log2 (pattern bound) + 1) := Nat.pow_pos (by decide)
  rw [fillLowBits, if_neg notNonpositive, clamped, Nat.pow_eq,
    toInt_ofNat_of_lt (by omega)]
  rw [Int.natCast_sub (by omega), Int.natCast_pow]
  rfl

/-- Patterns within a bound stay within the filled bound under any bitwise operation that keeps
patterns below a power of two below it. -/
theorem toInt_le_fillLowBits {result : Int64} (positive : 0 < bound.toInt)
    (below : pattern result < 2 ^ (Nat.log2 (pattern bound) + 1)) :
    0 ≤ result.toInt ∧ result.toInt ≤ (fillLowBits bound).toInt := by
  have range := toInt_range (fillLowBits bound)
  have filled := toInt_fillLowBits positive
  have cast : ((2 ^ (Nat.log2 (pattern bound) + 1) : Nat) : Int)
      = 2 ^ (Nat.log2 (pattern bound) + 1) := by
    rw [Int.natCast_pow]
    rfl
  rw [toInt_of_pattern_lt (by omega)]
  omega

theorem pattern_lt_of_le (nonnegative : 0 ≤ word.toInt) (within : word.toInt ≤ bound.toInt) :
    pattern word < 2 ^ (Nat.log2 (pattern bound) + 1) := by
  have same := toInt_eq_pattern nonnegative
  have boundValue := toInt_eq_pattern (Int.le_trans nonnegative within)
  have highest : pattern bound < 2 ^ (Nat.log2 (pattern bound) + 1) := lt_log2_self
  omega

theorem le_or_left (leftNonnegative : 0 ≤ left.toInt) (rightNonnegative : 0 ≤ right.toInt) :
    left.toInt ≤ (left ||| right).toInt := by
  have small : pattern (left ||| right) < 2 ^ 63 := by
    rw [pattern_or]
    exact or_lt_two_pow (pattern_lt_of_nonneg leftNonnegative)
      (pattern_lt_of_nonneg rightNonnegative)
  have increasing : pattern left ≤ pattern (left ||| right) := by
    rw [pattern_or]
    exact left_le_or
  rw [toInt_of_pattern_lt small, toInt_eq_pattern leftNonnegative]
  omega

end LinearTrace.Word
