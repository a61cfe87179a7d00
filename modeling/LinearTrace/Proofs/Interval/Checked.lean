import LinearTrace.Proofs.Facts.Range

/-!
# Transfer functions with checked steps

A transfer function negates, subtracts, shifts and divides the ends of its operands, and
builds an interval from the two ends that result.  Here every such step is checked: a step
that would overflow, shift by an amount outside the word, divide by zero or build an
interval whose ends are the wrong way round gives no result.  On intervals whose ends are
in order no step is refused, so the checked functions are the transfer functions, and what
they return is in order and holds the result of the operation.
-/

namespace LinearTrace

open List Option Int64 LinearTrace.Interval Word Facts

variable {word count : Int64} {literal : Const} {opcode : Opcode}

/-! ## Checked steps -/

namespace Word

/-- A left shift by an amount inside the word. -/
def shiftLeft? (word amount : Int64) : Option Int64 :=
  if 0 ≤ amount ∧ amount < 64 then some (word <<< amount) else none

/-- An arithmetic right shift by an amount inside the word. -/
def shiftRight? (word amount : Int64) : Option Int64 :=
  if 0 ≤ amount ∧ amount < 64 then some (word >>> amount) else none

/-- A logical right shift by an amount inside the word. -/
def uintShiftRight? (word amount : Int64) : Option Int64 :=
  if 0 ≤ amount ∧ amount < 64 then some (word.toUInt64 >>> amount.toUInt64).toInt64 else none

/-- The truncating quotient, unless the divisor is zero or the quotient overflows. -/
def div? (dividend divisor : Int64) : Option Int64 :=
  if divisor = 0 then none else ofInt? (dividend.toInt.tdiv divisor.toInt)

/-- The number of zero bits above the highest set bit of a positive word. -/
def leadingZeros (word : Int64) : Int64 :=
  Int64.ofNat (63 - Nat.log2 (pattern word))

/-- All ones, shifted down to the width of the word. -/
def fillLowBits? (word : Int64) : Option Int64 :=
  if word ≤ 0 then some 0 else uintShiftRight? (-1) (leadingZeros word)

theorem neg?_eq_some (notLeast : word ≠ minValue) : neg? word = some (-word) := by
  have range := toInt_range word
  have aboveLeast : word.toInt ≠ -2 ^ 63 := fun least => notLeast (toInt.inj least)
  apply ofInt?_eq_some
  rw [toInt_neg, bmod_of_range (by omega) (by omega)]

theorem div?_eq_some (dividend : Int64) {divisor : Int64} (positive : 0 < divisor.toInt) :
    div? dividend divisor = some (dividend / divisor) := by
  have nonzero : divisor ≠ 0 := by
    rintro rfl
    exact absurd positive (by decide)
  have notMinusOne : divisor ≠ -1 := by
    rintro rfl
    exact absurd positive (by decide)
  rw [div?, if_neg nonzero]
  exact ofInt?_eq_some (toInt_div_of_ne_right _ _ notMinusOne)

/-- The width of a positive word and the zeros above it make up the word; the sign bit is one of
the zeros. -/
theorem toInt_leadingZeros (positive : 0 < word.toInt) : 0 < (leadingZeros word).toInt ∧
      (leadingZeros word).toInt + (Nat.log2 (pattern word) + 1) = 64 := by
  have small := pattern_lt_of_nonneg (Int.le_of_lt positive)
  have nonzero : pattern word ≠ 0 := by
    have value := toInt_eq_pattern (Int.le_of_lt positive)
    omega
  have width := (Nat.log2_lt nonzero).mpr small
  rw [leadingZeros, toInt_ofNat_of_lt (by omega)]
  omega

theorem allOnes_div_pow {zeros width : Nat} (total : zeros + width = 64) :
    (2 ^ 64 - 1) / 2 ^ zeros = 2 ^ width - 1 := by
  have product : 2 ^ 64 = 2 ^ width * 2 ^ zeros := by
    rw [← Nat.pow_add, ← total, Nat.add_comm]
  have positive : 0 < 2 ^ zeros := Nat.two_pow_pos zeros
  have wide : 0 < 2 ^ width := Nat.two_pow_pos width
  rw [product]
  apply Nat.div_eq_of_lt_le
  · rw [Nat.sub_mul]
    omega
  · rw [Nat.sub_add_cancel wide]
    exact Nat.sub_lt (Nat.mul_pos wide positive) (by decide)

theorem fillLowBits?_eq_some (word : Int64) : fillLowBits? word = some (fillLowBits word) := by
  unfold fillLowBits?
  split
  next nonpositive => rw [fillLowBits, if_pos nonpositive]
  rename_i positive
  rw [Int64.not_le, Int64.lt_iff_toInt_lt] at positive
  obtain ⟨someZeros, total⟩ := toInt_leadingZeros positive
  have inWord : 0 ≤ leadingZeros word ∧ leadingZeros word < 64 := by
    rw [le_iff_toInt_le, Int64.lt_iff_toInt_lt]
    change 0 ≤ (leadingZeros word).toInt ∧ (leadingZeros word).toInt < 64
    omega
  have shifted : pattern (((-1 : Int64).toUInt64) >>> (leadingZeros word).toUInt64).toInt64
      = 2 ^ (Nat.log2 (pattern word) + 1) - 1 := by
    rw [pattern_uintShiftRight _ (by omega) (by omega)]
    exact allOnes_div_pow (by omega)
  have narrow : 2 ^ (Nat.log2 (pattern word) + 1) ≤ 2 ^ 63 :=
    Nat.pow_le_pow_right (by decide) (by omega)
  have wide : 0 < 2 ^ (Nat.log2 (pattern word) + 1) := Nat.two_pow_pos _
  rw [uintShiftRight?, if_pos inWord]
  congr 1
  apply toInt.inj
  rw [toInt_of_pattern_lt (by omega), shifted, toInt_fillLowBits positive,
    Int.natCast_sub (by omega), Int.natCast_pow]
  rfl

end Word

namespace Interval

variable {suits : Int64 → Prop} {bounds : Int64 → Interval} {transfer : Transfer}

/-- The interval with the given ends, when they are in order. -/
def ofOrdered? (lower upper : Int64) : Option Interval :=
  if lower ≤ upper then some ⟨lower, upper⟩ else none

/-- The interval with the given ends, in order; unbounded when an end overflowed. -/
def ofCheckedEnds? (lower upper : Option Int64) : Option Interval :=
  match lower, upper with
  | some lower, some upper => ofOrdered? lower upper
  | _, _ => some unbounded

/-- The words that fit in a number of bytes and a sign. -/
def ofSignedItem? (bytes : Int64) : Option Interval := do
  let half ← Word.shiftLeft? 1 (← Word.sub? (← Word.mul? bytes 8) 1)
  ofOrdered? (← Word.neg? half) (← Word.sub? half 1)

/-! ## Checked transfer functions -/

def add? (left right : Interval) : Option Interval :=
  ofCheckedEnds? (Word.add? left.lower right.lower) (Word.add? left.upper right.upper)

def sub? (left right : Interval) : Option Interval :=
  ofCheckedEnds? (Word.sub? left.lower right.upper) (Word.sub? left.upper right.lower)

def mul? (left right : Interval) : Option Interval :=
  match Word.mul? left.lower right.lower, Word.mul? left.lower right.upper,
    Word.mul? left.upper right.lower, Word.mul? left.upper right.upper with
  | some a, some b, some c, some d =>
    ofOrdered? (min (min a b) (min c d)) (max (max a b) (max c d))
  | _, _, _, _ => some unbounded

def neg? (interval : Interval) : Option Interval :=
  if interval.lower = Int64.minValue then some unbounded
  else do ofOrdered? (← Word.neg? interval.upper) (← Word.neg? interval.lower)

def and? (left right : Interval) : Option Interval :=
  match left.isNonnegative, right.isNonnegative with
  | true, true => ofOrdered? 0 (min left.upper right.upper)
  | true, false => ofOrdered? 0 left.upper
  | false, true => ofOrdered? 0 right.upper
  | false, false => some unbounded

def or? (left right : Interval) : Option Interval :=
  if left.isNonnegative && right.isNonnegative then do
    ofOrdered? (max left.lower right.lower) (← Word.fillLowBits? (max left.upper right.upper))
  else
    some unbounded

def xor? (left right : Interval) : Option Interval :=
  if left.isNonnegative && right.isNonnegative then do
    ofOrdered? 0 (← Word.fillLowBits? (max left.upper right.upper))
  else
    some unbounded

def leftShift? (interval amount : Interval) : Option Interval :=
  match amount.constant? with
  | some count =>
    if 0 ≤ count ∧ count ≤ 63 then do
      let lower ← Word.shiftLeft? interval.lower count
      let upper ← Word.shiftLeft? interval.upper count
      let lowerBack ← Word.shiftRight? lower count
      let upperBack ← Word.shiftRight? upper count
      if lowerBack = interval.lower ∧ upperBack = interval.upper then
        ofOrdered? lower upper
      else
        some unbounded
    else
      some unbounded
  | none => some unbounded

def rightShift? (interval amount : Interval) : Option Interval :=
  if amount.lower < 0 ∨ 63 < amount.upper then some unbounded
  else do
    let lower := min (← Word.shiftRight? interval.lower amount.lower)
      (← Word.shiftRight? interval.lower amount.upper)
    let upper := max (← Word.shiftRight? interval.upper amount.lower)
      (← Word.shiftRight? interval.upper amount.upper)
    ofOrdered? lower upper

def uintRightShift? (interval amount : Interval) : Option Interval :=
  if interval.isNonnegative then interval.rightShift? amount
  else
    match amount.constant? with
    | some count =>
      if 1 ≤ count ∧ count ≤ 63 then do
        ofOrdered? 0 (← Word.uintShiftRight? (-1) count)
      else
        some unbounded
    | none => some unbounded

def floorDiv? (interval divisor : Interval) : Option Interval :=
  match divisor.constant? with
  | some count =>
    if 0 < count then do
      ofOrdered? (← Word.div? interval.lower count) (← Word.div? interval.upper count)
    else
      some unbounded
  | none => some unbounded

def modulo? (interval divisor : Interval) : Option Interval :=
  match divisor.constant? with
  | some count =>
    if 0 < count then do
      let greatest ← Word.sub? count 1
      if interval.isNonnegative then ofOrdered? 0 (min interval.upper greatest)
      else ofOrdered? (← Word.neg? greatest) greatest
    else
      some unbounded
  | none => some unbounded

def signExtend? (interval bytes : Interval) : Option Interval :=
  match bytes.constant? with
  | some count =>
    if 1 ≤ count ∧ count ≤ 7 then do
      let extended ← ofSignedItem? count
      some (if interval.isWithin extended then interval else extended)
    else
      some unbounded
  | none => some unbounded

/-! ## Results in order -/

variable {left right interval amount : Interval} {x y : Int64}

theorem isOrdered_unbounded : unbounded.IsOrdered := by
  decide

theorem isOrdered_uintRightShift (ordered : interval.IsOrdered) (amountOrdered : amount.IsOrdered) :
    (interval.uintRightShift amount).IsOrdered := by
  by_cases inWord : 0 ≤ amount.lower.toInt ∧ amount.lower.toInt < 64
  · exact isOrdered_of_mem
      (mem_uintRightShift ordered.lower_mem amountOrdered.lower_mem inWord.1 inWord.2)
  -- An amount outside the word gives the unbounded interval or is no constant inside it.
  unfold uintRightShift
  split
  · exact isOrdered_of_mem (mem_rightShift ordered.lower_mem amountOrdered.lower_mem)
  split
  next count known =>
    have same := eq_of_constant? known amountOrdered.lower_mem
    split
    next inside =>
      rw [le_iff_toInt_le, le_iff_toInt_le, ← same] at inside
      change 1 ≤ amount.lower.toInt ∧ amount.lower.toInt ≤ 63 at inside
      omega
    · exact isOrdered_unbounded
  · exact isOrdered_unbounded

theorem bytes_cases (fits : 1 ≤ count ∧ count ≤ 7) :
    count = 1 ∨ count = 2 ∨ count = 3 ∨ count = 4 ∨ count = 5 ∨ count = 6 ∨ count = 7 := by
  simp only [le_iff_toInt_le, ← toInt_inj] at fits ⊢
  change 1 ≤ count.toInt ∧ count.toInt ≤ 7 at fits
  change count.toInt = 1 ∨ count.toInt = 2 ∨ count.toInt = 3 ∨ count.toInt = 4 ∨
    count.toInt = 5 ∨ count.toInt = 6 ∨ count.toInt = 7
  omega

theorem isOrdered_forConstant [DecidablePred suits]
    (each : ∀ count, suits count → (bounds count).IsOrdered) :
    (amount.forConstant suits bounds).IsOrdered := by
  unfold forConstant
  split
  · split
    · exact each _ ‹_›
    · exact isOrdered_unbounded
  · exact isOrdered_unbounded

theorem isOrdered_signExtend (ordered : interval.IsOrdered) :
    (interval.signExtend amount).IsOrdered := by
  refine isOrdered_forConstant fun count fits => ?_
  dsimp only
  split
  · exact ordered
  · rcases bytes_cases fits with rfl | rfl | rfl | rfl | rfl | rfl | rfl <;> decide

/-! ## No step is refused -/

theorem ofOrdered?_eq_some {lower upper : Int64} (ordered : (⟨lower, upper⟩ : Interval).IsOrdered) :
    ofOrdered? lower upper = some ⟨lower, upper⟩ :=
  if_pos ordered

theorem ofCheckedEnds?_eq_some {lower upper : Option Int64}
    (ordered : (ofEnds? lower upper).IsOrdered) :
    ofCheckedEnds? lower upper = some (ofEnds? lower upper) := by
  cases lower with
  | none => rfl
  | some lower =>
    cases upper with
    | none => rfl
    | some upper => exact ofOrdered?_eq_some ordered

theorem eq_some_forConstant [DecidablePred suits] {checked : Int64 → Option Interval}
    (ordered : (amount.forConstant suits bounds).IsOrdered)
    (each : ∀ count, suits count → (bounds count).IsOrdered → checked count = some (bounds count)) :
    (match amount.constant? with
      | some count => if suits count then checked count else some unbounded
      | none => some unbounded) = some (amount.forConstant suits bounds) := by
  unfold forConstant at ordered ⊢
  cases known : amount.constant? with
  | none => rfl
  | some count =>
    rw [known] at ordered
    dsimp only at ordered ⊢
    split
    next suited =>
      rw [if_pos suited] at ordered
      exact each count suited ordered
    · rfl

section

variable (leftOrdered : left.IsOrdered) (rightOrdered : right.IsOrdered)

include leftOrdered rightOrdered

theorem add?_eq_some : left.add? right = some (left.add right) :=
  ofCheckedEnds?_eq_some (isOrdered_of_mem (mem_add leftOrdered.lower_mem rightOrdered.lower_mem))

theorem sub?_eq_some : left.sub? right = some (left.sub right) :=
  ofCheckedEnds?_eq_some (isOrdered_of_mem (mem_sub leftOrdered.lower_mem rightOrdered.lower_mem))

theorem mul?_eq_some : left.mul? right = some (left.mul right) := by
  have ordered := isOrdered_of_mem (mem_mul leftOrdered.lower_mem rightOrdered.lower_mem)
  unfold mul at ordered
  unfold mul? mul
  cases first : Word.mul? left.lower right.lower with
  | none => rfl
  | some a =>
    cases second : Word.mul? left.lower right.upper with
    | none => rfl
    | some b =>
      cases third : Word.mul? left.upper right.lower with
      | none => rfl
      | some c =>
        cases fourth : Word.mul? left.upper right.upper with
        | none => rfl
        | some d =>
          rw [first, second, third, fourth] at ordered
          exact ofOrdered?_eq_some ordered

end

theorem neg?_eq_some (ordered : interval.IsOrdered) : interval.neg? = some interval.neg := by
  have result := isOrdered_of_mem (mem_neg ordered.lower_mem)
  unfold neg? neg
  unfold neg at result
  split
  · rfl
  rename_i lowerNotLeast
  rw [if_neg lowerNotLeast] at result
  have upperNotLeast : interval.upper ≠ minValue := by
    intro least
    rw [IsOrdered, least] at ordered
    exact lowerNotLeast (Int64.le_antisymm ordered (Int64.minValue_le _))
  rw [Word.neg?_eq_some upperNotLeast, Word.neg?_eq_some lowerNotLeast]
  exact ofOrdered?_eq_some result

section

variable (leftOrdered : left.IsOrdered) (rightOrdered : right.IsOrdered)

include leftOrdered rightOrdered

theorem and?_eq_some : left.and? right = some (left.and right) := by
  have ordered := isOrdered_of_mem (mem_and leftOrdered.lower_mem rightOrdered.lower_mem)
  unfold and at ordered
  unfold and? and
  cases leftKnown : left.isNonnegative with
  | true =>
    cases rightKnown : right.isNonnegative with
    | true =>
      rw [leftKnown, rightKnown] at ordered
      exact ofOrdered?_eq_some ordered
    | false =>
      rw [leftKnown, rightKnown] at ordered
      exact ofOrdered?_eq_some ordered
  | false =>
    cases rightKnown : right.isNonnegative with
    | true =>
      rw [leftKnown, rightKnown] at ordered
      exact ofOrdered?_eq_some ordered
    | false => rfl

theorem or?_eq_some : left.or? right = some (left.or right) := by
  have ordered := isOrdered_of_mem (mem_or leftOrdered.lower_mem rightOrdered.lower_mem)
  unfold or at ordered
  unfold or? or
  split
  next known =>
    rw [if_pos known] at ordered
    rw [fillLowBits?_eq_some]
    exact ofOrdered?_eq_some ordered
  · rfl

theorem xor?_eq_some : left.xor? right = some (left.xor right) := by
  have ordered := isOrdered_of_mem (mem_xor leftOrdered.lower_mem rightOrdered.lower_mem)
  unfold xor at ordered
  unfold xor? xor
  split
  next known =>
    rw [if_pos known] at ordered
    rw [fillLowBits?_eq_some]
    exact ofOrdered?_eq_some ordered
  · rfl

end

section

variable (ordered : interval.IsOrdered) (amountOrdered : amount.IsOrdered)

include ordered amountOrdered

theorem leftShift?_eq_some : interval.leftShift? amount = some (interval.leftShift amount) := by
  refine eq_some_forConstant (isOrdered_of_mem (mem_leftShift ordered.lower_mem
    amountOrdered.lower_mem)) fun count fits result => ?_
  have inside : 0 ≤ count ∧ count < 64 := ⟨fits.1, Int64.lt_of_le_of_lt fits.2 (by decide)⟩
  simp only [shiftLeft?, shiftRight?, if_pos inside, bind_eq_bind,
    bind_some]
  split
  next back =>
    rw [if_pos back] at result
    exact ofOrdered?_eq_some result
  · rfl

theorem rightShift?_eq_some : interval.rightShift? amount = some (interval.rightShift amount) := by
  have result := isOrdered_of_mem (mem_rightShift ordered.lower_mem amountOrdered.lower_mem)
  unfold rightShift at result
  unfold rightShift? rightShift
  split
  · rfl
  rename_i fits
  rw [if_neg fits] at result
  rw [not_or, Int64.not_lt, Int64.not_lt] at fits
  have lowerInside : 0 ≤ amount.lower ∧ amount.lower < 64 :=
    ⟨fits.1, Int64.lt_of_le_of_lt (Int64.le_trans amountOrdered fits.2) (by decide)⟩
  have upperInside : 0 ≤ amount.upper ∧ amount.upper < 64 :=
    ⟨Int64.le_trans fits.1 amountOrdered, Int64.lt_of_le_of_lt fits.2 (by decide)⟩
  simp only [shiftRight?, if_pos lowerInside, if_pos upperInside, bind_eq_bind,
    bind_some]
  exact ofOrdered?_eq_some result

theorem uintRightShift?_eq_some :
    interval.uintRightShift? amount = some (interval.uintRightShift amount) := by
  have result := isOrdered_uintRightShift ordered amountOrdered
  unfold uintRightShift at result
  unfold uintRightShift? uintRightShift
  split
  · exact rightShift?_eq_some ordered amountOrdered
  rename_i negative
  rw [if_neg negative] at result
  refine eq_some_forConstant result fun count fits result => ?_
  have inside : 0 ≤ count ∧ count < 64 :=
    ⟨Int64.le_trans (by decide) fits.1, Int64.lt_of_le_of_lt fits.2 (by decide)⟩
  rw [uintShiftRight?, if_pos inside]
  exact ofOrdered?_eq_some result

theorem floorDiv?_eq_some : interval.floorDiv? amount = some (interval.floorDiv amount) := by
  refine eq_some_forConstant (isOrdered_of_mem (mem_floorDiv ordered.lower_mem
    amountOrdered.lower_mem)) fun count positive result => ?_
  rw [Int64.lt_iff_toInt_lt] at positive
  rw [div?_eq_some _ positive, div?_eq_some _ positive]
  exact ofOrdered?_eq_some result

theorem modulo?_eq_some : interval.modulo? amount = some (interval.modulo amount) := by
  refine eq_some_forConstant (isOrdered_of_mem (mem_modulo ordered.lower_mem
    amountOrdered.lower_mem)) fun count positive result => ?_
  rw [Int64.lt_iff_toInt_lt] at positive
  change 0 < count.toInt at positive
  have before := toInt_sub_one positive
  have greatest : Word.sub? count 1 = some (count - 1) := Word.ofInt?_eq_some before
  have notLeast : count - 1 ≠ minValue := by
    intro least
    rw [least] at before
    change -2 ^ 63 = _ at before
    omega
  rw [greatest]
  simp only [bind_eq_bind, bind_some]
  split
  next nonnegative =>
    rw [if_pos nonnegative] at result
    exact ofOrdered?_eq_some result
  next negative =>
    rw [if_neg negative] at result
    rw [Word.neg?_eq_some notLeast]
    exact ofOrdered?_eq_some result

end

theorem ofSignedItem?_eq_some (fits : 1 ≤ count ∧ count ≤ 7) :
    ofSignedItem? count = some (ofItem count.toNatClampNeg true) := by
  rcases bytes_cases fits with rfl | rfl | rfl | rfl | rfl | rfl | rfl <;> decide

theorem signExtend?_eq_some (ordered : interval.IsOrdered) :
    interval.signExtend? amount = some (interval.signExtend amount) := by
  refine eq_some_forConstant (isOrdered_signExtend ordered) fun count fits _ => ?_
  rw [ofSignedItem?_eq_some fits]
  rfl

/-! ## Transfer functions and their operations -/

/-- A transfer function, the same with checked steps, and the operation they are for. -/
structure Transfer where
  opcode : Opcode
  arity : Nat
  result : Interval → Interval → Interval
  checked : Interval → Interval → Option Interval

/-- The transfer functions; one for an operation with a single operand ignores the second. -/
def transfers : List Transfer :=
  [⟨.intAdd, 2, add, add?⟩,
    ⟨.intSub, 2, sub, sub?⟩,
    ⟨.intMul, 2, mul, mul?⟩,
    ⟨.intNeg, 1, fun interval _ => interval.neg, fun interval _ => interval.neg?⟩,
    ⟨.intAnd, 2, and, and?⟩,
    ⟨.intOr, 2, or, or?⟩,
    ⟨.intXor, 2, xor, xor?⟩,
    ⟨.intLeftShift, 2, leftShift, leftShift?⟩,
    ⟨.intRightShift, 2, rightShift, rightShift?⟩,
    ⟨.uintRightShift, 2, uintRightShift, uintRightShift?⟩,
    ⟨.intFloorDiv, 2, floorDiv, floorDiv?⟩,
    ⟨.intMod, 2, modulo, modulo?⟩,
    ⟨.intSignExtend, 2, signExtend, signExtend?⟩]

/-- The operands of the operation, out of two words. -/
def Transfer.operands (transfer : Transfer) (x y : Int64) : List Const :=
  [.int x, .int y].take transfer.arity

def HoldsLiteral (interval : Interval) (literal : Const) : Prop :=
  ∃ word ∈ interval, literal = .int word

@[elab_as_elim]
theorem transfer_cases {motive : Transfer → Prop}
    (member : transfer ∈ transfers) (each : transfers.Forall motive) : motive transfer :=
  forall_iff_forall_mem.mp each transfer member

theorem checked_eq_some (leftOrdered : left.IsOrdered) (rightOrdered : right.IsOrdered)
    (member : transfer ∈ transfers) :
    transfer.checked left right = some (transfer.result left right) :=
  transfer_cases member ⟨add?_eq_some leftOrdered rightOrdered,
      sub?_eq_some leftOrdered rightOrdered,
      mul?_eq_some leftOrdered rightOrdered,
      neg?_eq_some leftOrdered,
      and?_eq_some leftOrdered rightOrdered,
      or?_eq_some leftOrdered rightOrdered,
      xor?_eq_some leftOrdered rightOrdered,
      leftShift?_eq_some leftOrdered rightOrdered,
      rightShift?_eq_some leftOrdered rightOrdered,
      uintRightShift?_eq_some leftOrdered rightOrdered,
      floorDiv?_eq_some leftOrdered rightOrdered,
      modulo?_eq_some leftOrdered rightOrdered,
      signExtend?_eq_some leftOrdered⟩

theorem isOrdered_result (leftOrdered : left.IsOrdered) (rightOrdered : right.IsOrdered)
    (member : transfer ∈ transfers) : (transfer.result left right).IsOrdered := by
  have fromLeft := leftOrdered.lower_mem
  have fromRight := rightOrdered.lower_mem
  exact transfer_cases member ⟨isOrdered_of_mem (mem_add fromLeft fromRight),
      isOrdered_of_mem (mem_sub fromLeft fromRight),
      isOrdered_of_mem (mem_mul fromLeft fromRight),
      isOrdered_of_mem (mem_neg fromLeft),
      isOrdered_of_mem (mem_and fromLeft fromRight),
      isOrdered_of_mem (mem_or fromLeft fromRight),
      isOrdered_of_mem (mem_xor fromLeft fromRight),
      isOrdered_of_mem (mem_leftShift fromLeft fromRight),
      isOrdered_of_mem (mem_rightShift fromLeft fromRight),
      isOrdered_uintRightShift leftOrdered rightOrdered,
      isOrdered_of_mem (mem_floorDiv fromLeft fromRight),
      isOrdered_of_mem (mem_modulo fromLeft fromRight),
      isOrdered_signExtend leftOrdered⟩

theorem holdsLiteral_result (xMember : x ∈ left) (yMember : y ∈ right)
    (member : transfer ∈ transfers)
    (evaluated : transfer.opcode.evaluate (transfer.operands x y) = some literal) :
    (transfer.result left right).HoldsLiteral literal := by
  revert evaluated
  refine transfer_cases member ⟨?_, ?_, ?_, ?_, ?_, ?_, ?_, ?_, ?_, ?_, ?_, ?_, ?_⟩
  · rintro ⟨⟩
    exact ⟨_, mem_add xMember yMember, rfl⟩
  · rintro ⟨⟩
    exact ⟨_, mem_sub xMember yMember, rfl⟩
  · rintro ⟨⟩
    exact ⟨_, mem_mul xMember yMember, rfl⟩
  · rintro ⟨⟩
    exact ⟨_, mem_neg xMember, rfl⟩
  · rintro ⟨⟩
    exact ⟨_, mem_and xMember yMember, rfl⟩
  · rintro ⟨⟩
    exact ⟨_, mem_or xMember yMember, rfl⟩
  · rintro ⟨⟩
    exact ⟨_, mem_xor xMember yMember, rfl⟩
  · intro value
    exact ⟨_, mem_leftShift xMember yMember, (of_shifted value).2⟩
  · intro value
    exact ⟨_, mem_rightShift xMember yMember, (of_shifted value).2⟩
  · intro value
    obtain ⟨⟨lower, upper⟩, same⟩ := of_shifted value
    exact ⟨_, mem_uintRightShift xMember yMember lower upper, same⟩
  · intro value
    exact ⟨_, mem_floorDiv xMember yMember, (of_nonzero value).2⟩
  · intro value
    exact ⟨_, mem_modulo xMember yMember, (of_nonzero value).2⟩
  · intro value
    obtain ⟨result, rfl⟩ := of_signExtended value
    exact ⟨_, mem_signExtend xMember yMember value, rfl⟩

/-! ## Comparisons -/

def signedComparisons : List Opcode :=
  [.intLt, .intLe, .intGt, .intGe, .intEq, .intNe]

def unsignedComparisons : List Opcode :=
  [.uintLt, .uintLe, .uintGt, .uintGe]

theorem exists_truth (x y : Int64) (member : opcode ∈ signedComparisons ++ unsignedComparisons) :
    ∃ verdict, opcode.evaluate [.int x, .int y] = some (.truth verdict) := by
  simp only [signedComparisons, unsignedComparisons, cons_append, nil_append,
    mem_cons, not_mem_nil, or_false] at member
  rcases member with rfl | rfl | rfl | rfl | rfl | rfl | rfl | rfl | rfl | rfl <;> exact ⟨_, rfl⟩

theorem isOrdered_decided (isTrue isFalse : Bool) : (decided isTrue isFalse).IsOrdered := by
  cases isTrue <;> cases isFalse <;> decide

theorem isOrdered_compare (opcode : Opcode) (left right : Interval) (same : Bool) :
    (compare opcode left right same).IsOrdered := by
  cases opcode with
  | intLt | intLe | intGt | intGe | intEq | intNe => exact isOrdered_decided _ _
  | _ => exact isOrdered_decided false false

theorem holdsLiteral_compare {same : Bool}
    (member : opcode ∈ signedComparisons ++ unsignedComparisons) (xMember : x ∈ left)
    (yMember : y ∈ right) (oneValue : same → x = y)
    (evaluated : opcode.evaluate [.int x, .int y] = some literal) :
    (compare opcode left right same).HoldsLiteral literal := by
  obtain ⟨verdict, truth⟩ := exists_truth x y member
  obtain rfl : Const.truth verdict = literal := some.inj (truth.symm.trans evaluated)
  exact ⟨_, covers_compare xMember yMember oneValue truth, rfl⟩

end Interval

namespace Facts

variable {facts : Facts} {op : Operation} {first second : Value} {x y : Int64}

theorem binaryInterval_eq (args : op.args = [first, second])
    (transfer : Interval → Interval → Interval) :
    facts.binaryInterval op transfer =
      .ok (transfer (facts.interval first) (facts.interval second)) := by
  unfold binaryInterval argInterval Operation.arg
  rw [args]
  rfl

theorem unaryInterval_eq (args : op.args = [first]) (transfer : Interval → Interval) :
    facts.unaryInterval op transfer = .ok (transfer (facts.interval first)) := by
  unfold unaryInterval argInterval Operation.arg
  rw [args]
  rfl

theorem eq_of_sameArgs_eq_true (args : op.args = [first, second]) (same : sameArgs op) :
    first = second := by
  unfold sameArgs at same
  rw [args] at same
  exact beq_iff_eq.mp same

/-- The facts give an interval for the result whose ends are in order and that holds the value of
the operation on the given operands, when that value is defined. -/
def BoundsResult (facts : Facts) (op : Operation) (args : List Const) : Prop :=
  ∃ interval, facts.resultInterval op = .ok interval ∧ interval.IsOrdered ∧
    ∀ literal, op.opcode.evaluate args = some literal → interval.HoldsLiteral literal

theorem BoundsResult.of_covers {interval : Interval} {args : List Const} {verdict : Bool}
    (result : facts.resultInterval op = .ok interval)
    (truth : op.opcode.evaluate args = some (.truth verdict))
    (covers : interval.Covers (.truth verdict)) : facts.BoundsResult op args := by
  refine ⟨interval, result, isOrdered_of_mem covers, ?_⟩
  intro literal evaluated
  rw [truth] at evaluated
  cases evaluated
  exact ⟨_, covers, rfl⟩

section

variable (args : op.args = [first, second]) (oneValue : first = second → x = y) (xMember : x ∈
  facts.interval first) (yMember : y ∈ facts.interval second)

include args oneValue xMember yMember

theorem boundsResult_signed (member : op.opcode ∈ signedComparisons) :
    facts.BoundsResult op [.int x, .int y] := by
  obtain ⟨verdict, truth⟩ := exists_truth x y (mem_append_left _ member)
  have result : facts.resultInterval op =
      facts.binaryInterval op fun x y => .compare op.opcode x y (sameArgs op) := by
    simp only [signedComparisons, mem_cons, not_mem_nil, or_false] at member
    unfold resultInterval
    rcases member with opcode | opcode | opcode | opcode | opcode | opcode <;> rw [opcode]
  exact .of_covers (result.trans (binaryInterval_eq args _)) truth (covers_compare xMember yMember
      (fun same => oneValue (eq_of_sameArgs_eq_true args same)) truth)

theorem boundsResult_unsigned (member : op.opcode ∈ unsignedComparisons) :
    facts.BoundsResult op [.int x, .int y] := by
  obtain ⟨verdict, truth⟩ := exists_truth x y (mem_append_right _ member)
  have same := fun known => oneValue (eq_of_sameArgs_eq_true args known)
  obtain ⟨transfer, result, covers⟩ : ∃ transfer,
      facts.resultInterval op = facts.binaryInterval op transfer ∧
        (transfer (facts.interval first) (facts.interval second)).Covers (.truth verdict) := by
    simp only [unsignedComparisons, mem_cons, not_mem_nil, or_false] at member
    unfold resultInterval
    rcases member with opcode | opcode | opcode | opcode <;>
      · rw [opcode] at truth ⊢
        refine ⟨_, rfl, ?_⟩
        split
        next signed nonnegative isSigned =>
          exact covers_unsigned isSigned nonnegative xMember yMember same truth
        · exact covers_boolean verdict
  exact .of_covers (result.trans (binaryInterval_eq args _)) truth covers

end

theorem boundsResult_test (args : op.args = [first]) (xMember : x ∈ facts.interval first)
    (member : op.opcode = .intIsTrue ∨ op.opcode = .intIsZero) :
    facts.BoundsResult op [.int x] := by
  rcases member with opcode | opcode
  · have result : facts.resultInterval op =
        facts.unaryInterval op fun x => .decided x.excludesZero (x.isExactly 0) := by
      unfold resultInterval
      rw [opcode]
    exact .of_covers (result.trans (unaryInterval_eq args _)) (by rw [opcode]; rfl)
      (covers_isTrue xMember)
  · have result : facts.resultInterval op =
        facts.unaryInterval op fun x => .decided (x.isExactly 0) x.excludesZero := by
      unfold resultInterval
      rw [opcode]
    exact .of_covers (result.trans (unaryInterval_eq args _)) (by rw [opcode]; rfl)
      (covers_isZero xMember)

end Facts

namespace Interval

/-- On intervals whose ends are in order, no step of a transfer function overflows or is
otherwise refused, the ends of the result are in order, and the result holds the value of the
operation on any two words of the operands whenever that value is defined.  The same holds of
the intervals for comparisons: of signed comparisons with a flag that may be set only for equal
words, and of what the facts give for comparisons, signed or unsigned, and for tests against
zero. -/
theorem transfer_sound {left right : Interval} (leftOrdered : left.IsOrdered)
    (rightOrdered : right.IsOrdered) :
    (∀ transfer ∈ transfers,
      transfer.checked left right = some (transfer.result left right) ∧
      (transfer.result left right).IsOrdered ∧
      ∀ x ∈ left, ∀ y ∈ right, ∀ literal,
        transfer.opcode.evaluate (transfer.operands x y) = some literal →
          (transfer.result left right).HoldsLiteral literal) ∧
    (∀ opcode ∈ signedComparisons, ∀ same,
      (compare opcode left right same).IsOrdered ∧
      ∀ x ∈ left, ∀ y ∈ right, (same = true → x = y) → ∀ literal,
        opcode.evaluate [.int x, .int y] = some literal →
          (compare opcode left right same).HoldsLiteral literal) ∧
    (∀ (facts : Facts) (op : Operation) (first second : Value), op.args = [first, second] →
      op.opcode ∈ signedComparisons ++ unsignedComparisons →
      facts.interval first = left → facts.interval second = right →
      ∀ x ∈ left, ∀ y ∈ right, (first = second → x = y) →
        facts.BoundsResult op [.int x, .int y]) ∧
    (∀ (facts : Facts) (op : Operation) (operand : Value), op.args = [operand] →
      (op.opcode = .intIsTrue ∨ op.opcode = .intIsZero) → facts.interval operand = left →
      ∀ x ∈ left, facts.BoundsResult op [.int x]) := by
  refine ⟨?_, ?_, ?_, ?_⟩
  · intro transfer member
    refine ⟨checked_eq_some leftOrdered rightOrdered member,
      isOrdered_result leftOrdered rightOrdered member, ?_⟩
    intro x xMember y yMember literal evaluated
    exact holdsLiteral_result xMember yMember member evaluated
  · intro opcode member same
    refine ⟨isOrdered_compare opcode left right same, ?_⟩
    intro x xMember y yMember oneValue literal evaluated
    exact holdsLiteral_compare (List.mem_append_left _ member) xMember yMember oneValue evaluated
  · rintro facts op first second args member rfl rfl x xMember y yMember oneValue
    rcases List.mem_append.mp member with signed | unsigned
    · exact Facts.boundsResult_signed args oneValue xMember yMember signed
    · exact Facts.boundsResult_unsigned args oneValue xMember yMember unsigned
  · rintro facts op operand args member rfl x xMember
    exact Facts.boundsResult_test args xMember member

/-- Products that reach the least word and do not overflow. -/
theorem transfer_sound_least :
    (⟨-4611686018427387904, 3⟩ : Interval).IsOrdered ∧ (⟨-1, 2⟩ : Interval).IsOrdered ∧
    mul? ⟨-4611686018427387904, 3⟩ ⟨-1, 2⟩ = some ⟨Int64.minValue, 4611686018427387904⟩ ∧
    (⟨Int64.minValue, 4611686018427387904⟩ : Interval).HoldsLiteral (.int Int64.minValue) := by
  have ordered : (⟨-4611686018427387904, 3⟩ : Interval).IsOrdered ∧ (⟨-1, 2⟩ : Interval).IsOrdered :=
    ⟨by decide, by decide⟩
  have product := (transfer_sound ordered.1 ordered.2).1 ⟨.intMul, 2, mul, mul?⟩
    (by simp [transfers])
  have value : (⟨-4611686018427387904, 3⟩ : Interval).mul ⟨-1, 2⟩ =
      ⟨Int64.minValue, 4611686018427387904⟩ := by decide
  have holds := product.2.2 (-4611686018427387904) ⟨by decide, by decide⟩ 2 ⟨by decide, by decide⟩
    (.int Int64.minValue) (by decide)
  dsimp only at product holds
  rw [value] at product holds
  exact ⟨ordered.1, ordered.2, product.1, holds⟩

end Interval

end LinearTrace
