import LinearTrace.Interval.Transfer
import LinearTrace.Interval.Narrow
import LinearTrace.Opcode.Evaluate
import LinearTrace.Proofs.Word

/-!
# What intervals say about words

An interval speaks of the words it holds.  The transfer functions are sound: the
interval computed for an operation holds the result of the operation on any words
that the operand intervals hold.  Narrowing keeps exactly the words that satisfy the
condition narrowed by, and fails where there are none.
-/

namespace LinearTrace.Interval

open Word Int64 Int

variable {a b least greatest : Int} {word lower upper value x y count bytes result limit : Int64}
  {interval left right amount divisor other : Interval}

theorem mem_iff : word ∈ interval ↔
      interval.lower.toInt ≤ word.toInt ∧ word.toInt ≤ interval.upper.toInt := by
  change interval.lower ≤ word ∧ word ≤ interval.upper ↔ _
  rw [le_iff_toInt_le, le_iff_toInt_le]

theorem mem_mk : word ∈ (⟨lower, upper⟩ : Interval) ↔
      lower.toInt ≤ word.toInt ∧ word.toInt ≤ upper.toInt :=
  mem_iff

theorem mem_unbounded (word : Int64) : word ∈ unbounded := by
  rw [mem_iff]
  have range := toInt_range word
  have least : unbounded.lower.toInt = -2 ^ 63 := rfl
  have greatest : unbounded.upper.toInt = 2 ^ 63 - 1 := rfl
  omega

theorem mem_constant_iff : word ∈ constant value ↔ word = value := by
  rw [constant, mem_mk, ← toInt_inj]
  omega

theorem mem_constant (word : Int64) : word ∈ constant word :=
  mem_constant_iff.mpr rfl

/-! ## Ends in order -/

def IsOrdered (interval : Interval) : Prop :=
  interval.lower ≤ interval.upper

instance (interval : Interval) : Decidable interval.IsOrdered :=
  inferInstanceAs (Decidable (interval.lower ≤ interval.upper))

theorem isOrdered_of_mem (mem : word ∈ interval) : interval.IsOrdered :=
  Int64.le_trans mem.1 mem.2

theorem IsOrdered.lower_mem (ordered : interval.IsOrdered) : interval.lower ∈ interval :=
  ⟨Int64.le_refl _, ordered⟩

theorem IsOrdered.upper_mem (ordered : interval.IsOrdered) : interval.upper ∈ interval :=
  ⟨ordered, Int64.le_refl _⟩

theorem IsOrdered.toInt_le (ordered : interval.IsOrdered) :
    interval.lower.toInt ≤ interval.upper.toInt :=
  le_iff_toInt_le.mp ordered

/-! ## Questions about intervals -/

theorem eq_of_constant? (known : interval.constant? = some value) (mem : word ∈ interval) :
    word = value := by
  unfold constant? isConstant at known
  split at known
  next same =>
    rw [beq_iff_eq] at same
    cases known
    rw [mem_iff, ← same] at mem
    apply toInt.inj
    omega
  · cases known

theorem eq_of_isExactly (known : interval.isExactly value) (mem : word ∈ interval) :
    word = value := by
  simp only [isExactly, Bool.and_eq_true, beq_iff_eq] at known
  rw [mem_iff, known.1, known.2] at mem
  apply toInt.inj
  omega

theorem nonneg_of_isNonnegative (known : interval.isNonnegative) (mem : word ∈ interval) :
    0 ≤ word.toInt := by
  simp only [isNonnegative, decide_eq_true_eq, le_iff_toInt_le] at known
  change 0 ≤ interval.lower.toInt at known
  rw [mem_iff] at mem
  omega

theorem ne_zero_of_excludesZero (known : interval.excludesZero) (mem : word ∈ interval) :
    word ≠ 0 := by
  rintro rfl
  simp only [excludesZero, contains, Bool.not_eq_true', Bool.and_eq_false_iff,
    decide_eq_false_iff_not] at known
  rcases known with above | below
  · exact above mem.1
  · exact below mem.2

theorem eq_zero_or_one_of_isBoolean (known : interval.isBoolean) (mem : word ∈ interval) :
    word = 0 ∨ word = 1 := by
  simp only [isBoolean, Bool.and_eq_true, decide_eq_true_eq, le_iff_toInt_le] at known
  change 0 ≤ interval.lower.toInt ∧ interval.upper.toInt ≤ 1 at known
  rw [mem_iff] at mem
  have cases : word.toInt = 0 ∨ word.toInt = 1 := by omega
  rcases cases with zero | one
  · exact .inl (toInt.inj zero)
  · exact .inr (toInt.inj one)

theorem lt_of_allLt (known : left.allLt right) (xMem : x ∈ left) (yMem : y ∈ right) :
    x.toInt < y.toInt := by
  simp only [allLt, decide_eq_true_eq, lt_iff_toInt_lt] at known
  rw [mem_iff] at xMem yMem
  omega

theorem le_of_allLe (known : left.allLe right) (xMem : x ∈ left) (yMem : y ∈ right) :
    x.toInt ≤ y.toInt := by
  simp only [allLe, decide_eq_true_eq, le_iff_toInt_le] at known
  rw [mem_iff] at xMem yMem
  omega

/-! ## Ends that may overflow -/

theorem exists_toInt (value : Int) (atLeast : -2 ^ 63 ≤ value) (below : value < 2 ^ 63) :
    ∃ word : Int64, word.toInt = value :=
  ⟨ofInt value, toInt_ofInt_of_le atLeast below⟩

theorem ofEnds?_of_toInt (isLower : lower.toInt = least) (isUpper : upper.toInt = greatest) :
    ofEnds? (ofInt? least) (ofInt? greatest) = ⟨lower, upper⟩ := by
  rw [ofInt?_eq_some isLower, ofInt?_eq_some isUpper]
  rfl

theorem ofEnds?_of_overflow (overflows : ¬ (-2 ^ 63 ≤ least ∧ greatest < 2 ^ 63)) :
    ofEnds? (ofInt? least) (ofInt? greatest) = unbounded := by
  have first : minValue.toInt = -2 ^ 63 := rfl
  have last : maxValue.toInt = 2 ^ 63 - 1 := rfl
  by_cases fits : -2 ^ 63 ≤ least ∧ least < 2 ^ 63
  · have outside : ofInt? greatest = none := if_neg (by omega)
    rw [outside]
    cases ofInt? least <;> rfl
  · have under : ofInt? least = none := if_neg (by omega)
    rw [under]
    rfl

theorem mem_ofEnds? (atLeast : least ≤ a) (atMost : a ≤ greatest)
    (wraps : word.toInt = a.bmod (2 ^ 64)) : word ∈ ofEnds? (ofInt? least) (ofInt? greatest) := by
  by_cases fits : -2 ^ 63 ≤ least ∧ greatest < 2 ^ 63
  · obtain ⟨lower, isLower⟩ := exists_toInt least fits.1 (by omega)
    obtain ⟨upper, isUpper⟩ := exists_toInt greatest (by omega) fits.2
    rw [ofEnds?_of_toInt isLower isUpper, mem_mk, wraps, bmod_of_range (by omega) (by omega),
      isLower, isUpper]
    exact ⟨atLeast, atMost⟩
  · rw [ofEnds?_of_overflow fits]
    exact mem_unbounded _

theorem mem_add (xMem : x ∈ left) (yMem : y ∈ right) : x + y ∈ left.add right := by
  rw [mem_iff] at xMem yMem
  exact mem_ofEnds? (by omega) (by omega) (toInt_add x y)

theorem mem_sub (xMem : x ∈ left) (yMem : y ∈ right) : x - y ∈ left.sub right := by
  rw [mem_iff] at xMem yMem
  exact mem_ofEnds? (by omega) (by omega) (toInt_sub x y)

theorem multiple_between {x : Int} (ax : a ≤ x) (xb : x ≤ b) (y : Int) :
    min (a * y) (b * y) ≤ x * y ∧ x * y ≤ max (a * y) (b * y) := by
  rcases le_total 0 y with nonnegative | nonpositive
  · have lower := mul_le_mul_of_nonneg_right ax nonnegative
    have upper := mul_le_mul_of_nonneg_right xb nonnegative
    omega
  · have lower := mul_le_mul_of_nonpos_right ax nonpositive
    have upper := mul_le_mul_of_nonpos_right xb nonpositive
    omega

theorem product_between (xMem : x ∈ left) (yMem : y ∈ right) :
    min (min (left.lower.toInt * right.lower.toInt) (left.lower.toInt * right.upper.toInt))
        (min (left.upper.toInt * right.lower.toInt) (left.upper.toInt * right.upper.toInt)) ≤
        x.toInt * y.toInt ∧
      x.toInt * y.toInt ≤
        max (max (left.lower.toInt * right.lower.toInt) (left.lower.toInt * right.upper.toInt))
          (max (left.upper.toInt * right.lower.toInt) (left.upper.toInt * right.upper.toInt)) := by
  rw [mem_iff] at xMem yMem
  have outer := multiple_between xMem.1 xMem.2 y.toInt
  have atLower := multiple_between yMem.1 yMem.2 left.lower.toInt
  have atUpper := multiple_between yMem.1 yMem.2 left.upper.toInt
  rw [mul_comm right.lower.toInt, mul_comm right.upper.toInt, mul_comm y.toInt] at atLower atUpper
  omega

theorem mul_eq_ofEnds? (left right : Interval) : left.mul right = ofEnds? (ofInt? (min
        (min (left.lower.toInt * right.lower.toInt) (left.lower.toInt * right.upper.toInt))
        (min (left.upper.toInt * right.lower.toInt) (left.upper.toInt * right.upper.toInt))))
      (ofInt? (max
        (max (left.lower.toInt * right.lower.toInt) (left.lower.toInt * right.upper.toInt))
        (max (left.upper.toInt * right.lower.toInt) (left.upper.toInt * right.upper.toInt)))) := by
  unfold mul
  split
  next a b c d aFits bFits cFits dFits =>
    rw [← toInt_of_mul? aFits, ← toInt_of_mul? bFits, ← toInt_of_mul? cFits,
      ← toInt_of_mul? dFits]
    symm
    apply ofEnds?_of_toInt <;> simp only [toInt_min, toInt_max]
  next refused =>
    refine (ofEnds?_of_overflow fun fits => ?_).symm
    obtain ⟨a, isA⟩ := exists_toInt (left.lower.toInt * right.lower.toInt) (by omega) (by omega)
    obtain ⟨b, isB⟩ := exists_toInt (left.lower.toInt * right.upper.toInt) (by omega) (by omega)
    obtain ⟨c, isC⟩ := exists_toInt (left.upper.toInt * right.lower.toInt) (by omega) (by omega)
    obtain ⟨d, isD⟩ := exists_toInt (left.upper.toInt * right.upper.toInt) (by omega) (by omega)
    exact refused a b c d (ofInt?_eq_some isA) (ofInt?_eq_some isB) (ofInt?_eq_some isC)
      (ofInt?_eq_some isD)

theorem mem_mul (xMem : x ∈ left) (yMem : y ∈ right) : x * y ∈ left.mul right := by
  rw [mul_eq_ofEnds?]
  obtain ⟨atLeast, atMost⟩ := product_between xMem yMem
  exact mem_ofEnds? atLeast atMost (toInt_mul x y)

theorem neg_eq_ofEnds? (ordered : interval.IsOrdered) :
    interval.neg = ofEnds? (ofInt? (-interval.upper.toInt)) (ofInt? (-interval.lower.toInt)) := by
  have inOrder := ordered.toInt_le
  have lowerRange := toInt_range interval.lower
  have upperRange := toInt_range interval.upper
  have first : minValue.toInt = -2 ^ 63 := rfl
  unfold neg
  split
  next isLeast => rw [isLeast, ofEnds?_of_overflow (by omega)]
  rename_i notLeast
  rw [← toInt_inj] at notLeast
  symm
  apply ofEnds?_of_toInt <;> rw [toInt_neg, bmod_of_range (by omega) (by omega)]

theorem mem_neg (mem : x ∈ interval) : -x ∈ interval.neg := by
  rw [neg_eq_ofEnds? (isOrdered_of_mem mem)]
  rw [mem_iff] at mem
  exact mem_ofEnds? (by omega) (by omega) (toInt_neg x)

/-! ## Bitwise operations -/

theorem mem_and (xMem : x ∈ left) (yMem : y ∈ right) : x &&& y ∈ left.and right := by
  have zero : (0 : Int64).toInt = 0 := rfl
  unfold and
  split
  next leftKnown rightKnown =>
    have fromLeft := and_range_left y (nonneg_of_isNonnegative leftKnown xMem)
    have fromRight := and_range_right x (nonneg_of_isNonnegative rightKnown yMem)
    rw [mem_iff] at xMem yMem
    rw [mem_mk, toInt_min]
    omega
  next leftKnown rightKnown =>
    have fromLeft := and_range_left y (nonneg_of_isNonnegative leftKnown xMem)
    rw [mem_iff] at xMem
    rw [mem_mk]
    omega
  next leftKnown rightKnown =>
    have fromRight := and_range_right x (nonneg_of_isNonnegative rightKnown yMem)
    rw [mem_iff] at yMem
    rw [mem_mk]
    omega
  · exact mem_unbounded _

/-- What disjunctions and exclusive disjunctions have in common: the patterns stay below the power
of two above the greater bound. -/
theorem le_fillLowBits_of_pattern (result : Int64) (leftKnown : left.isNonnegative)
    (rightKnown : right.isNonnegative) (xMem : x ∈ left) (yMem : y ∈ right)
    (below : ∀ bits, pattern x < 2 ^ bits → pattern y < 2 ^ bits → pattern result < 2 ^ bits) :
    0 ≤ result.toInt ∧ result.toInt ≤ (fillLowBits (max left.upper right.upper)).toInt := by
  have xNonnegative := nonneg_of_isNonnegative leftKnown xMem
  have yNonnegative := nonneg_of_isNonnegative rightKnown yMem
  rw [mem_iff] at xMem yMem
  have bound := toInt_max left.upper right.upper
  rcases Int.lt_or_le 0 (max left.upper right.upper).toInt with positive | nonpositive
  · exact toInt_le_fillLowBits positive (below _ (pattern_lt_of_le xNonnegative (by omega))
        (pattern_lt_of_le yNonnegative (by omega)))
  -- Both operands are zero, and so is a result without any bit.
  have xZero := toInt_eq_pattern xNonnegative
  have yZero := toInt_eq_pattern yNonnegative
  have empty := below 0 (by omega) (by omega)
  have resultZero : result.toInt = pattern result := toInt_of_pattern_lt (by omega)
  have filled : fillLowBits (max left.upper right.upper) = 0 :=
    if_pos (le_iff_toInt_le.mpr nonpositive)
  rw [filled]
  change _ ∧ _ ≤ 0
  omega

theorem mem_or (xMem : x ∈ left) (yMem : y ∈ right) : x ||| y ∈ left.or right := by
  unfold or
  split
  next known =>
    rw [Bool.and_eq_true] at known
    have filled := le_fillLowBits_of_pattern (x ||| y) known.1 known.2 xMem yMem
      (fun bits xBelow yBelow => by
        rw [pattern_or]
        exact Nat.or_lt_two_pow xBelow yBelow)
    have xNonnegative := nonneg_of_isNonnegative known.1 xMem
    have yNonnegative := nonneg_of_isNonnegative known.2 yMem
    have fromLeft := le_or_left xNonnegative yNonnegative
    have fromRight := le_or_left yNonnegative xNonnegative
    rw [Int64.or_comm] at fromRight
    rw [mem_iff] at xMem yMem
    rw [mem_mk, toInt_max]
    omega
  · exact mem_unbounded _

theorem mem_xor (xMem : x ∈ left) (yMem : y ∈ right) : x ^^^ y ∈ left.xor right := by
  unfold xor
  split
  next known =>
    rw [Bool.and_eq_true] at known
    rw [mem_mk]
    exact le_fillLowBits_of_pattern _ known.1 known.2 xMem yMem (fun bits xBelow yBelow => by
        rw [pattern_xor]
        exact Nat.xor_lt_two_pow xBelow yBelow)
  · exact mem_unbounded _

/-! ## Shifts -/

/-- What is bounded only for some constant amounts. -/
def forConstant (amount : Interval) (suits : Int64 → Prop) [DecidablePred suits]
    (bounds : Int64 → Interval) : Interval :=
  match amount.constant? with
  | some count => if suits count then bounds count else unbounded
  | none => unbounded

theorem mem_forConstant {suits : Int64 → Prop} [DecidablePred suits] {bounds : Int64 → Interval}
    (countMem : count ∈ amount) (bounded : suits count → word ∈ bounds count) :
    word ∈ amount.forConstant suits bounds := by
  unfold forConstant
  split
  next constant known =>
    cases eq_of_constant? known countMem
    split
    · exact bounded ‹_›
    · exact mem_unbounded _
  · exact mem_unbounded _

theorem shiftedEnds_eq_ofEnds? (ordered : interval.IsOrdered)
    (inWord : 0 ≤ count.toInt ∧ count.toInt ≤ 63) :
    (if (interval.lower <<< count) >>> count = interval.lower ∧
        (interval.upper <<< count) >>> count = interval.upper then
      ⟨interval.lower <<< count, interval.upper <<< count⟩
    else unbounded) = ofEnds? (ofInt? (interval.lower.toInt * 2 ^ count.toInt.toNat))
        (ofInt? (interval.upper.toInt * 2 ^ count.toInt.toNat)) := by
  have positive : (0 : Int) < 2 ^ count.toInt.toNat := Int.pow_pos (by decide)
  have undone {word : Int64} (fits : -2 ^ 63 ≤ word.toInt * 2 ^ count.toInt.toNat ∧
      word.toInt * 2 ^ count.toInt.toNat < 2 ^ 63) : (word <<< count) >>> count = word := by
    apply toInt.inj
    rw [toInt_shiftRight _ inWord.1 (by omega), toInt_shiftLeft _ inWord.1 (by omega),
      bmod_of_range fits.1 fits.2, mul_ediv_cancel _ (ne_of_gt positive)]
  have inOrder := mul_le_mul_of_nonneg_right ordered.toInt_le (Int.le_of_lt positive)
  split
  next exact =>
    exact (ofEnds?_of_toInt (toInt_shiftLeft_of_exact inWord.1 (by omega) exact.1)
      (toInt_shiftLeft_of_exact inWord.1 (by omega) exact.2)).symm
  next lossy =>
    refine (ofEnds?_of_overflow fun fits => lossy ⟨?_, ?_⟩).symm
    · exact undone ⟨fits.1, by omega⟩
    · exact undone ⟨by omega, fits.2⟩

theorem mem_leftShift (xMem : x ∈ interval) (countMem : count ∈ amount) :
    x <<< count ∈ interval.leftShift amount := by
  refine mem_forConstant countMem fun inWord => ?_
  rw [le_iff_toInt_le, le_iff_toInt_le] at inWord
  change 0 ≤ count.toInt ∧ count.toInt ≤ 63 at inWord
  have positive : (0 : Int) ≤ 2 ^ count.toInt.toNat := Int.le_of_lt (Int.pow_pos (by decide))
  rw [shiftedEnds_eq_ofEnds? (isOrdered_of_mem xMem) inWord]
  rw [mem_iff] at xMem
  exact mem_ofEnds? (mul_le_mul_of_nonneg_right xMem.1 positive)
    (mul_le_mul_of_nonneg_right xMem.2 positive) (toInt_shiftLeft x inWord.1 (by omega))

theorem ediv_pow_add (number : Int) (first more : Nat) :
    (0 ≤ number → number / 2 ^ (first + more) ≤ number / 2 ^ first) ∧
      (number ≤ 0 → number / 2 ^ first ≤ number / 2 ^ (first + more)) := by
  have firstPositive : (0 : Int) < 2 ^ first := Int.pow_pos (by decide)
  have morePositive : (0 : Int) < 2 ^ more := Int.pow_pos (by decide)
  have staged : number / 2 ^ (first + more) = number / 2 ^ first / 2 ^ more := by
    rw [pow_add, ediv_ediv_of_nonneg (Int.le_of_lt firstPositive)]
  rw [staged]
  constructor
  · intro nonnegative
    exact ediv_le_self _ (ediv_nonneg nonnegative (Int.le_of_lt firstPositive))
  intro nonpositive
  have quotient : number / 2 ^ first ≤ 0 := by
    exact Int.ediv_nonpos_of_nonpos_of_neg nonpositive firstPositive
  rw [Int.le_ediv_iff_mul_le morePositive]
  nlinarith

theorem ediv_pow_between (number : Int) (least amount greatest : Nat) (lower : least ≤ amount)
    (upper : amount ≤ greatest) :
    min (number / 2 ^ least) (number / 2 ^ greatest) ≤ number / 2 ^ amount ∧
      number / 2 ^ amount ≤ max (number / 2 ^ least) (number / 2 ^ greatest) := by
  have fromLeast := ediv_pow_add number least (amount - least)
  have toGreatest := ediv_pow_add number amount (greatest - amount)
  rw [Nat.add_sub_cancel' lower] at fromLeast
  rw [Nat.add_sub_cancel' upper] at toGreatest
  rcases le_total 0 number with nonnegative | nonpositive
  · have first := fromLeast.1 nonnegative
    have second := toGreatest.1 nonnegative
    omega
  · have first := fromLeast.2 nonpositive
    have second := toGreatest.2 nonpositive
    omega

theorem mem_rightShift (xMem : x ∈ interval) (countMem : count ∈ amount) :
    x >>> count ∈ interval.rightShift amount := by
  unfold rightShift
  split
  · exact mem_unbounded _
  rename_i inWord
  rw [not_or, Int64.not_lt, Int64.not_lt, Int64.le_iff_toInt_le, Int64.le_iff_toInt_le] at inWord
  change 0 ≤ amount.lower.toInt ∧ amount.upper.toInt ≤ 63 at inWord
  rw [mem_iff] at xMem countMem
  have positive : (0 : Int) < 2 ^ count.toInt.toNat := Int.pow_pos (by decide)
  have fromLower := Int.ediv_le_ediv positive xMem.1
  have fromUpper := Int.ediv_le_ediv positive xMem.2
  have lowerBetween := ediv_pow_between interval.lower.toInt amount.lower.toInt.toNat
    count.toInt.toNat amount.upper.toInt.toNat (by omega) (by omega)
  have upperBetween := ediv_pow_between interval.upper.toInt amount.lower.toInt.toNat
    count.toInt.toNat amount.upper.toInt.toNat (by omega) (by omega)
  rw [mem_mk, toInt_min, toInt_max, toInt_shiftRight _ (by omega) (by omega),
    toInt_shiftRight _ (by omega) (by omega), toInt_shiftRight _ (by omega) (by omega),
    toInt_shiftRight _ (by omega) (by omega), toInt_shiftRight _ (by omega) (by omega)]
  omega

theorem pattern_uintShiftRight (x : Int64) (lower : 0 ≤ count.toInt) (upper : count.toInt < 64) :
    pattern (x.toUInt64 >>> count.toUInt64).toInt64 = pattern x / 2 ^ count.toInt.toNat := by
  change (x.toUInt64 >>> count.toUInt64).toNat = _
  have amount : count.toUInt64.toNat = count.toInt.toNat := by
    have same := toInt_eq_pattern lower
    rw [same]
    rfl
  rw [UInt64.toNat_shiftRight, amount, Nat.mod_eq_of_lt (by omega), Nat.shiftRight_eq_div_pow]
  rfl

theorem uintShiftRight_eq_shiftRight (nonnegative : 0 ≤ x.toInt) (lower : 0 ≤ count.toInt)
    (upper : count.toInt < 64) : (x.toUInt64 >>> count.toUInt64).toInt64 = x >>> count := by
  have shifted := pattern_uintShiftRight x lower upper
  have small := pattern_lt_of_nonneg nonnegative
  have smaller := Nat.div_le_self (pattern x) (2 ^ count.toInt.toNat)
  apply toInt.inj
  rw [toInt_of_pattern_lt (by omega), shifted, toInt_shiftRight _ lower upper,
    toInt_eq_pattern nonnegative, natCast_ediv, natCast_pow]
  rfl

theorem mem_uintRightShift (xMem : x ∈ interval) (countMem : count ∈ amount)
    (lower : 0 ≤ count.toInt) (upper : count.toInt < 64) :
    (x.toUInt64 >>> count.toUInt64).toInt64 ∈ interval.uintRightShift amount := by
  unfold uintRightShift
  split
  next known =>
    rw [uintShiftRight_eq_shiftRight (nonneg_of_isNonnegative known xMem) lower upper]
    exact mem_rightShift xMem countMem
  refine mem_forConstant countMem fun positive => ?_
  rw [le_iff_toInt_le, le_iff_toInt_le] at positive
  change 1 ≤ count.toInt ∧ count.toInt ≤ 63 at positive
  have shifted := pattern_uintShiftRight x lower upper
  have allOnes := pattern_uintShiftRight (-1) lower upper
  change _ = (2 ^ 64 - 1) / 2 ^ count.toInt.toNat at allOnes
  have bounded := pattern_lt x
  have atMost : pattern x / 2 ^ count.toInt.toNat ≤ (2 ^ 64 - 1) / 2 ^ count.toInt.toNat :=
    Nat.div_le_div_right (by omega)
  have halved : (2 ^ 64 - 1) / 2 ^ count.toInt.toNat ≤ (2 ^ 64 - 1) / 2 ^ 1 :=
    Nat.div_le_div_left (Nat.pow_le_pow_right (by decide) (by omega)) (by decide)
  have result : (x.toUInt64 >>> count.toUInt64).toInt64.toInt = _ :=
    toInt_of_pattern_lt (by omega)
  have limit : (((-1 : Int64).toUInt64) >>> count.toUInt64).toInt64.toInt = _ :=
    toInt_of_pattern_lt (by omega)
  rw [mem_mk, result, limit, shifted, allOnes]
  change (0 : Int) ≤ _ ∧ _
  omega

/-! ## Division -/

theorem mem_floorDiv (xMem : x ∈ interval) (yMem : y ∈ divisor) :
    x / y ∈ interval.floorDiv divisor := by
  refine mem_forConstant yMem fun positive => ?_
  rw [lt_iff_toInt_lt] at positive
  have notMinusOne : y ≠ -1 := by
    rintro rfl
    exact absurd positive (by decide)
  rw [mem_iff] at xMem
  rw [mem_mk, toInt_div_of_ne_right _ _ notMinusOne,
    toInt_div_of_ne_right _ _ notMinusOne, toInt_div_of_ne_right _ _ notMinusOne]
  exact ⟨Int.tdiv_le_tdiv positive xMem.1, Int.tdiv_le_tdiv positive xMem.2⟩

theorem toInt_sub_one (positive : 0 < y.toInt) : (y - 1).toInt = y.toInt - 1 := by
  have range := toInt_range y
  have one : (1 : Int64).toInt = 1 := rfl
  rw [toInt_sub, one, bmod_of_range (by omega) (by omega)]

theorem mem_modulo (xMem : x ∈ interval) (yMem : y ∈ divisor) :
    x % y ∈ interval.modulo divisor := by
  refine mem_forConstant yMem fun positive => ?_
  rw [lt_iff_toInt_lt] at positive
  have range := toInt_range y
  have before := toInt_sub_one positive
  have small := tmod_lt_of_pos x.toInt positive
  split
  next nonnegative =>
    have xNonnegative := nonneg_of_isNonnegative nonnegative xMem
    have atLeast := tmod_nonneg y.toInt xNonnegative
    have atMost : x.toInt.tmod y.toInt ≤ x.toInt := by
      have multiple := mul_nonneg (Int.le_of_lt positive)
        (ediv_nonneg xNonnegative (Int.le_of_lt positive))
      rw [tmod_eq_emod_of_nonneg xNonnegative, emod_def]
      omega
    rw [mem_iff] at xMem
    rw [mem_mk, toInt_mod, toInt_min, before]
    change (0 : Int) ≤ _ ∧ _
    omega
  · have atLeast : -y.toInt < x.toInt.tmod y.toInt := by
      have opposite := tmod_lt_of_pos (-x.toInt) positive
      rw [neg_tmod] at opposite
      omega
    rw [mem_mk, toInt_mod, toInt_neg, before, bmod_of_range (by omega) (by omega)]
    omega

/-! ## Sign extension -/

theorem mem_ofItem_signed {bytes : Nat} (lower : 1 ≤ bytes) (upper : bytes ≤ 7) :
    word ∈ ofItem bytes true ↔
      -2 ^ (8 * bytes - 1) ≤ word.toInt ∧ word.toInt < 2 ^ (8 * bytes - 1) := by
  have power : (2 : Int) ^ (8 * bytes - 1) ≤ 2 ^ 63 :=
    pow_le_pow_right₀ (by decide) (by omega)
  have positive : (0 : Int) < 2 ^ (8 * bytes - 1) := Int.pow_pos (by decide)
  have named : Int.pow 2 (8 * bytes - 1) = 2 ^ (8 * bytes - 1) := rfl
  rw [ofItem, if_pos ⟨lower, upper⟩, if_pos rfl, mem_mk, named,
    toInt_ofInt_of_le (by omega) (by omega), toInt_ofInt_of_le (by omega) (by omega)]
  omega

theorem toInt_signExtended (lower : 1 ≤ bytes.toInt) (upper : bytes.toInt ≤ 7)
    (extended : Opcode.signExtended x bytes = some (.int result)) :
    ∃ unused : Nat, unused + 8 * bytes.toInt.toNat = 64 ∧
      result.toInt = (x.toInt * 2 ^ unused).bmod (2 ^ 64) / 2 ^ unused := by
  have fits : 1 ≤ bytes ∧ bytes ≤ 7 := by
    rw [le_iff_toInt_le, le_iff_toInt_le]
    exact ⟨lower, upper⟩
  have eight : (8 : Int64).toInt = 8 := rfl
  have sixtyFour : (64 : Int64).toInt = 64 := rfl
  have scaled : (8 * bytes).toInt = 8 * bytes.toInt := by
    rw [toInt_mul, eight, bmod_of_range (by omega) (by omega)]
  have amount : (64 - 8 * bytes).toInt = 64 - 8 * bytes.toInt := by
    rw [toInt_sub, scaled, sixtyFour, bmod_of_range (by omega) (by omega)]
  rw [Opcode.signExtended, if_pos fits] at extended
  cases extended
  refine ⟨(64 - 8 * bytes).toInt.toNat, by omega, ?_⟩
  rw [toInt_shiftRight _ (by omega) (by omega), toInt_shiftLeft _ (by omega) (by omega)]

theorem signExtended_range (lower : 1 ≤ bytes.toInt) (upper : bytes.toInt ≤ 7)
    (extended : Opcode.signExtended x bytes = some (.int result)) :
    result ∈ ofItem bytes.toInt.toNat true ∧ (x ∈ ofItem bytes.toInt.toNat true → result = x) := by
  obtain ⟨unused, total, value⟩ := toInt_signExtended lower upper extended
  rw [mem_ofItem_signed (by omega) (by omega), mem_ofItem_signed (by omega) (by omega)]
  have positive : (0 : Int) < 2 ^ unused := Int.pow_pos (by decide)
  have width : (2 : Int) ^ (8 * bytes.toInt.toNat - 1) * 2 ^ unused = 2 ^ 63 := by
    rw [← pow_add]
    congr 1
    omega
  have wrapLower := le_bmod (x := x.toInt * 2 ^ unused) (m := 2 ^ 64) (by decide)
  have wrapUpper := bmod_lt (x := x.toInt * 2 ^ unused) (m := 2 ^ 64) (by decide)
  constructor
  · rw [value]
    constructor
    · rw [Int.le_ediv_iff_mul_le positive, Int.neg_mul, width]
      omega
    · rw [Int.ediv_lt_iff_lt_mul positive, width]
      omega
  · intro fits
    have scaledLower := mul_le_mul_of_nonneg_right fits.1 (Int.le_of_lt positive)
    have scaledUpper := mul_lt_mul_of_pos_right fits.2 positive
    rw [Int.neg_mul, width] at scaledLower
    rw [width] at scaledUpper
    apply toInt.inj
    rw [value, bmod_of_range scaledLower scaledUpper,
      mul_ediv_cancel _ (ne_of_gt positive)]

theorem mem_of_isWithin {inner outer : Interval} (within : inner.isWithin outer)
    (mem : word ∈ inner) : word ∈ outer := by
  simp only [isWithin, Bool.and_eq_true, decide_eq_true_eq, le_iff_toInt_le] at within
  rw [mem_iff] at mem ⊢
  omega

theorem mem_signExtend {bytes : Interval} (xMem : x ∈ interval) (countMem : count ∈ bytes)
    (extended : Opcode.signExtended x count = some (.int result)) :
    result ∈ interval.signExtend bytes := by
  refine mem_forConstant countMem fun fewer => ?_
  rw [le_iff_toInt_le, le_iff_toInt_le] at fewer
  obtain ⟨fits, kept⟩ := signExtended_range fewer.1 fewer.2 extended
  dsimp only
  split
  next within =>
    rw [kept (mem_of_isWithin within xMem)]
    exact xMem
  · exact fits

/-! ## Narrowing -/

theorem narrow_of_nonempty (nonempty : ¬ min interval.upper upper < max interval.lower lower) :
    narrow lower upper interval =
      .ok (max interval.lower lower != interval.lower || min interval.upper upper != interval.upper)
        ⟨max interval.lower lower, min interval.upper upper⟩ := by
  change (if min interval.upper upper < max interval.lower lower then _ else _ : Narrowing) _ = _
  rw [if_neg nonempty]
  rfl

theorem mem_max_min (notBelow : ¬ min interval.upper upper < max interval.lower lower) :
    max interval.lower lower ∈ interval ∧ lower ≤ max interval.lower lower ∧
      max interval.lower lower ≤ upper := by
  rw [Int64.not_lt, Int64.le_iff_toInt_le, toInt_min, toInt_max] at notBelow
  rw [mem_iff, Int64.le_iff_toInt_le, Int64.le_iff_toInt_le, toInt_max]
  omega

/-- A narrowing leaves exactly the words with a property and tells whether there were others.  It
fails only where no word has the property, and then the interval stays as it was. -/
structure Narrowing.IsExact (narrowing : Narrowing) (keeps : Int64 → Prop) (interval : Interval) :
    Prop where
  succeeds : (∃ word ∈ interval, keeps word) → ∃ changed narrowed,
    narrowing interval = .ok changed narrowed ∧
      (∀ word, word ∈ narrowed ↔ word ∈ interval ∧ keeps word) ∧
      (changed = true ↔ ∃ word ∈ interval, word ∉ narrowed)
  fails : (∀ word ∈ interval, ¬ keeps word) → ∃ cause, narrowing interval = .error cause interval

/-- Only what a property says about the words of the interval matters. -/
theorem Narrowing.IsExact.congr {narrowing : Narrowing} {keeps same : Int64 → Prop}
    (exact : narrowing.IsExact keeps interval)
    (iff : ∀ word ∈ interval, (same word ↔ keeps word)) : narrowing.IsExact same interval := by
  refine ⟨fun ⟨word, mem, isSame⟩ => ?_, fun none => ?_⟩
  · obtain ⟨changed, narrowed, ran, kept, isChanged⟩ :=
      exact.succeeds ⟨word, mem, (iff word mem).mp isSame⟩
    refine ⟨changed, narrowed, ran, fun other => ?_, isChanged⟩
    rw [kept, and_congr_right (iff other)]
  · exact exact.fails fun word mem isKept => none word mem ((iff word mem).mpr isKept)

theorem Narrowing.IsExact.of_run {first second : Narrowing} {keeps : Int64 → Prop}
    (same : first interval = second interval) (exact : second.IsExact keeps interval) :
    first.IsExact keeps interval := by
  obtain ⟨succeeds, fails⟩ := exact
  rw [← same] at succeeds fails
  exact ⟨succeeds, fails⟩

theorem exact_narrow (lower upper : Int64) (interval : Interval) :
    (narrow lower upper).IsExact (fun word => lower ≤ word ∧ word ≤ upper) interval := by
  refine ⟨fun ⟨word, mem, atLeast, atMost⟩ => ?_, fun none => ?_⟩
  · have nonempty : ¬ min interval.upper upper < max interval.lower lower := by
      rw [Int64.le_iff_toInt_le] at atLeast atMost
      rw [mem_iff] at mem
      rw [Int64.not_lt, Int64.le_iff_toInt_le, toInt_max, toInt_min]
      omega
    have kept (word : Int64) :
        word ∈ (⟨max interval.lower lower, min interval.upper upper⟩ : Interval) ↔
          word ∈ interval ∧ lower ≤ word ∧ word ≤ upper := by
      rw [mem_mk, mem_iff, toInt_max, toInt_min, Int64.le_iff_toInt_le, Int64.le_iff_toInt_le]
      omega
    refine ⟨_, _, narrow_of_nonempty nonempty, kept, ?_⟩
    simp only [kept, not_and, Bool.or_eq_true, bne_iff_ne, ne_eq, ← toInt_inj, toInt_max,
      toInt_min, Int64.le_iff_toInt_le, mem_iff]
    rw [mem_iff] at mem
    constructor
    · rintro (raised | lowered)
      · exact ⟨interval.lower, by omega, by omega⟩
      · exact ⟨interval.upper, by omega, by omega⟩
    · rintro ⟨other, isOther, gone⟩
      by_contra same
      exact absurd (gone isOther (by omega)) (by omega)
  · have empty : min interval.upper upper < max interval.lower lower := by
      by_contra nonempty
      obtain ⟨mem, between⟩ := mem_max_min nonempty
      exact none _ mem between
    refine ⟨.emptyNarrowing interval lower upper, ?_⟩
    change (if min interval.upper upper < max interval.lower lower then _ else _ : Narrowing) _ = _
    rw [if_pos empty]
    rfl

theorem exact_intersect (other interval : Interval) :
    (intersect other).IsExact (· ∈ other) interval :=
  exact_narrow other.lower other.upper interval

section

variable (ordered : other.IsOrdered)

include ordered

theorem exact_makeLe (interval : Interval) :
    (makeLe other).IsExact (fun word => ∃ limit ∈ other, word ≤ limit) interval := by
  refine (exact_narrow minValue other.upper interval).congr fun word _ => ⟨?_, ?_⟩
  · rintro ⟨limit, mem, atMost⟩
    exact ⟨word.minValue_le, Int64.le_trans atMost mem.2⟩
  · exact fun between => ⟨other.upper, ordered.upper_mem, between.2⟩

theorem exact_makeGe (interval : Interval) :
    (makeGe other).IsExact (fun word => ∃ limit ∈ other, limit ≤ word) interval := by
  refine (exact_narrow other.lower maxValue interval).congr fun word _ => ⟨?_, ?_⟩
  · rintro ⟨limit, mem, atLeast⟩
    exact ⟨Int64.le_trans mem.1 atLeast, word.le_maxValue⟩
  · exact fun between => ⟨other.lower, ordered.lower_mem, between.1⟩

theorem exact_makeLt (interval : Interval) :
    (makeLt other).IsExact (fun word => ∃ limit ∈ other, word < limit) interval := by
  have one : (1 : Int64).toInt = 1 := rfl
  have below (word : Int64) : (∃ limit ∈ other, word < limit) ↔ word < other.upper := by
    refine ⟨?_, fun below => ⟨_, ordered.upper_mem, below⟩⟩
    rintro ⟨limit, mem, below⟩
    exact Int64.lt_of_lt_of_le below mem.2
  unfold makeLt
  cases known : Word.sub? other.upper 1 with
  | none =>
    -- No word is below the least one.
    refine ⟨fun ⟨word, _, isBelow⟩ => ?_, fun _ => ⟨.belowLeast interval, rfl⟩⟩
    have range := toInt_range word
    have upperRange := toInt_range other.upper
    have least : minValue.toInt = -2 ^ 63 := rfl
    have greatest : maxValue.toInt = 2 ^ 63 - 1 := rfl
    rw [below, lt_iff_toInt_lt] at isBelow
    rw [Word.sub?, ofInt?, if_pos (by omega)] at known
    cases known
  | some limit =>
    have value := toInt_of_sub? known
    refine (exact_narrow minValue limit interval).congr fun word _ => ?_
    rw [below, lt_iff_toInt_lt, Int64.le_iff_toInt_le (y := limit)]
    exact ⟨fun isBelow => ⟨word.minValue_le, by omega⟩, fun atMost => by omega⟩

theorem exact_makeGt (interval : Interval) :
    (makeGt other).IsExact (fun word => ∃ limit ∈ other, limit < word) interval := by
  have one : (1 : Int64).toInt = 1 := rfl
  have above (word : Int64) : (∃ limit ∈ other, limit < word) ↔ other.lower < word := by
    refine ⟨?_, fun above => ⟨_, ordered.lower_mem, above⟩⟩
    rintro ⟨limit, mem, above⟩
    exact Int64.lt_of_le_of_lt mem.1 above
  unfold makeGt
  cases known : Word.add? other.lower 1 with
  | none =>
    refine ⟨fun ⟨word, _, isAbove⟩ => ?_, fun _ => ⟨.aboveGreatest interval, rfl⟩⟩
    have range := toInt_range word
    have lowerRange := toInt_range other.lower
    have least : minValue.toInt = -2 ^ 63 := rfl
    have greatest : maxValue.toInt = 2 ^ 63 - 1 := rfl
    rw [above, lt_iff_toInt_lt] at isAbove
    rw [Word.add?, ofInt?, if_pos (by omega)] at known
    cases known
  | some limit =>
    have value := toInt_of_add? known
    refine (exact_narrow limit maxValue interval).congr fun word _ => ?_
    rw [above, lt_iff_toInt_lt, Int64.le_iff_toInt_le (x := limit)]
    exact ⟨fun isAbove => ⟨by omega, word.le_maxValue⟩, fun atLeast => by omega⟩

end

theorem exact_makeNonzero (ordered : interval.IsOrdered) : makeNonzero.IsExact
    (fun word => word ≠ 0 ∨ interval.lower < 0 ∧ 0 < interval.upper) interval := by
  have zero : (0 : Int64).toInt = 0 := rfl
  have one : (1 : Int64).toInt = 1 := rfl
  have minusOne : (-1 : Int64).toInt = -1 := rfl
  have runs : makeNonzero interval = (if interval.lower = 0 then narrow 1 maxValue
      else if interval.upper = 0 then narrow minValue (-1)
      else pure false : Narrowing) interval := rfl
  refine .of_run runs ?_
  split
  next atLower =>
    refine (exact_narrow 1 maxValue interval).congr fun word mem => ?_
    have last := word.toInt_le
    rw [mem_iff, atLower] at mem
    rw [atLower, le_iff_toInt_le, le_iff_toInt_le, lt_iff_toInt_lt, ne_eq,
      ← toInt_inj]
    omega
  rename_i notLower
  split
  next atUpper =>
    refine (exact_narrow minValue (-1) interval).congr fun word mem => ?_
    have first := word.minValue_le_toInt
    rw [mem_iff, atUpper] at mem
    rw [atUpper, le_iff_toInt_le, le_iff_toInt_le, lt_iff_toInt_lt,
      lt_iff_toInt_lt, ne_eq, ← toInt_inj]
    omega
  next notUpper =>
    rw [← toInt_inj] at notLower notUpper
    have all (word : Int64) (mem : word ∈ interval) :
        word ≠ 0 ∨ interval.lower < 0 ∧ 0 < interval.upper := by
      rw [mem_iff] at mem
      rw [lt_iff_toInt_lt, lt_iff_toInt_lt, ne_eq, ← toInt_inj]
      omega
    refine ⟨fun _ => ⟨false, interval, rfl, fun word => ?_, ?_⟩, fun none => ?_⟩
    · exact ⟨fun mem => ⟨mem, all word mem⟩, And.left⟩
    · exact ⟨fun isTrue => absurd isTrue Bool.false_ne_true, fun ⟨word, mem, gone⟩ => absurd mem gone⟩
    · exact absurd (all _ ordered.lower_mem) (none _ ordered.lower_mem)

/-- A narrowing that succeeds on every interval that holds a word, and keeps the word. -/
def Narrowing.Keeps (narrowing : Narrowing) (word : Int64) : Prop :=
  ∀ interval : Interval, word ∈ interval →
    ∃ changed narrowed, narrowing interval = .ok changed narrowed ∧ word ∈ narrowed

theorem Narrowing.Keeps.of_exact {narrowing : Narrowing} {keeps : Int64 → Prop}
    (exact : ∀ interval, narrowing.IsExact keeps interval) (isKept : keeps word) :
    narrowing.Keeps word := by
  intro interval mem
  obtain ⟨changed, narrowed, ran, kept, _⟩ := (exact interval).succeeds ⟨word, mem, isKept⟩
  exact ⟨changed, narrowed, ran, (kept word).mpr ⟨mem, isKept⟩⟩

theorem keeps_intersect (mem : word ∈ other) : (intersect other).Keeps word :=
  .of_exact (exact_intersect other) mem

theorem keeps_makeLe (mem : limit ∈ other) (atMost : word.toInt ≤ limit.toInt) :
    (makeLe other).Keeps word :=
  .of_exact (exact_makeLe (isOrdered_of_mem mem)) ⟨limit, mem, le_iff_toInt_le.mpr atMost⟩

theorem keeps_makeGe (mem : limit ∈ other) (atLeast : limit.toInt ≤ word.toInt) :
    (makeGe other).Keeps word :=
  .of_exact (exact_makeGe (isOrdered_of_mem mem)) ⟨limit, mem, le_iff_toInt_le.mpr atLeast⟩

theorem keeps_makeLt (mem : limit ∈ other) (below : word.toInt < limit.toInt) :
    (makeLt other).Keeps word :=
  .of_exact (exact_makeLt (isOrdered_of_mem mem)) ⟨limit, mem, lt_iff_toInt_lt.mpr below⟩

theorem keeps_makeGt (mem : limit ∈ other) (above : limit.toInt < word.toInt) :
    (makeGt other).Keeps word :=
  .of_exact (exact_makeGt (isOrdered_of_mem mem)) ⟨limit, mem, lt_iff_toInt_lt.mpr above⟩

theorem keeps_makeNonzero (nonzero : word ≠ 0) : makeNonzero.Keeps word := by
  intro interval mem
  obtain ⟨changed, narrowed, ran, kept, _⟩ :=
    (exact_makeNonzero (isOrdered_of_mem mem)).succeeds ⟨word, mem, .inl nonzero⟩
  exact ⟨changed, narrowed, ran, (kept word).mpr ⟨mem, .inl nonzero⟩⟩

/-- Narrowing by another interval succeeds exactly where some word is in the relation with a word
of the other, and then leaves exactly these words.  Zero is left out unless it lies strictly
inside, and nothing but zero is; only the interval of zero alone has no other word. -/
theorem narrowings_exact (ordered : interval.IsOrdered) (otherOrdered : other.IsOrdered) :
    (makeLt other).IsExact (fun word => ∃ limit ∈ other, word < limit) interval ∧
      (makeLe other).IsExact (fun word => ∃ limit ∈ other, word ≤ limit) interval ∧
      (makeGt other).IsExact (fun word => ∃ limit ∈ other, limit < word) interval ∧
      (makeGe other).IsExact (fun word => ∃ limit ∈ other, limit ≤ word) interval ∧
      (intersect other).IsExact (fun word => ∃ limit ∈ other, word = limit) interval ∧
      makeNonzero.IsExact (fun word => word ≠ 0 ∨ interval.lower < 0 ∧ 0 < interval.upper)
        interval ∧
      ((∃ cause after, makeNonzero interval = .error cause after) ↔ interval = ⟨0, 0⟩) := by
  have nonzero := exact_makeNonzero ordered
  refine ⟨exact_makeLt otherOrdered interval, exact_makeLe otherOrdered interval,
    exact_makeGt otherOrdered interval, exact_makeGe otherOrdered interval,
    (exact_intersect other interval).congr fun word _ => exists_eq_right', nonzero, ?_, ?_⟩
  · rintro ⟨cause, after, failed⟩
    have isZero (word : Int64) (mem : word ∈ interval) : word = 0 := by
      by_contra notZero
      obtain ⟨changed, narrowed, ran, _⟩ := nonzero.succeeds ⟨word, mem, Or.inl notZero⟩
      cases failed.symm.trans ran
    have lower := isZero _ ordered.lower_mem
    have upper := isZero _ ordered.upper_mem
    cases interval
    cases lower
    cases upper
    rfl
  · rintro rfl
    obtain ⟨cause, failed⟩ := nonzero.fails (by
      rintro word ⟨atLeast, atMost⟩ (notZero | ⟨below, _⟩)
      · exact notZero (Int64.le_antisymm atMost atLeast)
      · exact Int64.lt_irrefl below)
    exact ⟨cause, _, failed⟩

/-- No word is below the least one, and zero stays inside an interval around it. -/
theorem narrowings_exact_least :
    (⟨-3, 4⟩ : Interval).IsOrdered ∧ (constant minValue).IsOrdered ∧
      (∃ cause, makeLt (constant minValue) ⟨-3, 4⟩ = .error cause ⟨-3, 4⟩) ∧
      ∃ changed narrowed, makeNonzero ⟨-3, 4⟩ = .ok changed narrowed ∧ 0 ∈ narrowed := by
  have ordered : (⟨-3, 4⟩ : Interval).IsOrdered := by decide
  have isLeast : (constant minValue).IsOrdered := by decide
  obtain ⟨below, _, _, _, _, nonzero, _⟩ := narrowings_exact ordered isLeast
  have inside : (0 : Int64) ∈ (⟨-3, 4⟩ : Interval) := ⟨by decide, by decide⟩
  have stays : (0 : Int64) ≠ 0 ∨ (-3 : Int64) < 0 ∧ (0 : Int64) < 4 := by decide
  obtain ⟨changed, narrowed, ran, kept, _⟩ := nonzero.succeeds ⟨0, inside, stays⟩
  refine ⟨ordered, isLeast, below.fails ?_, changed, narrowed, ran, (kept 0).mpr ⟨inside, stays⟩⟩
  rintro word _ ⟨limit, ⟨_, atMost⟩, isBelow⟩
  exact Int64.not_lt.mpr word.minValue_le (Int64.lt_of_lt_of_le isBelow atMost)

end LinearTrace.Interval
