import LinearTrace.Peephole.Arithmetic
import LinearTrace.Proofs.Facts.Emit

/-!
# Simplified operations compute the same value

Every verdict of the simplifier's rules says the truth in each valuation of which
the facts hold: what takes the place of an operation has the value that the
operation computes.
-/

namespace LinearTrace

open Option LinearTrace.Interval Int64 Operation Word LinearTrace.Valuation

variable {negated : Bool} {word x : Int64} {other value : Value} {opcode : Opcode}
  {verdict : Simplified} {shift : Int64 → Int64 → Int64}

namespace Facts

variable {heap : Heap} {valuation : Valuation} {facts : Facts} {op : Operation} {box : Box}
  {literal : Const} {excuse : Prop}

/-- What takes the place of an operation has the operation's value. -/
def SoundVerdict (heap : Heap) (facts : Facts) (op : Operation) (box : Box) : Simplified → Prop
  | .keep new _ | .cheaper new _ =>
    new.result = some box ∧ new.opcode.isIntegral = true ∧
      ∀ valuation literal, facts.Holds heap valuation → op.computed valuation = some literal →
        new.computed valuation = some literal
  | .equals result value | .names result value =>
    result = box ∧
      ∀ valuation literal, facts.Holds heap valuation → op.computed valuation = some literal →
        valuation.value value = some literal
  | .word result word =>
    result = box ∧
      ∀ valuation literal, facts.Holds heap valuation → op.computed valuation = some literal →
        literal = .int word
  | .nothing => False

theorem sound_keep (result : op.result = some box) (integral : op.opcode.isIntegral)
    (reversible : Bool) : SoundVerdict heap facts op box (.keep op reversible) :=
  ⟨result, integral, fun _ _ _ computed => computed⟩

/-! ## Rules on two words -/

section Words

variable {function : Int64 → Int64 → Int64} {left right : Value}

/-- Wherever the operation has a value, that is a function of two words. -/
def OnWords (op : Operation) (function : Int64 → Int64 → Int64) : Prop :=
  ∀ {valuation literal left right}, op.args[0]? = some left → op.args[1]? = some right →
    op.computed valuation = some literal → ∃ x y, valuation.value left = some (.int x) ∧
      valuation.value right = some (.int y) ∧ literal = .int (function x y)

theorem onWords {defined : Int64 → Int64 → Option Const}
    (evaluates : op.opcode.evaluate = fun args => Opcode.onWords args defined)
    (value : ∀ {x y literal}, defined x y = some literal → literal = .int (function x y)) :
    OnWords op function := by
  intro valuation literal left right leftArg rightArg computed
  obtain ⟨x, y, leftValue, rightValue, isValue⟩ :=
    words_of_args evaluates leftArg rightArg computed
  exact ⟨x, y, leftValue, rightValue, value isValue⟩

theorem onWords_total (evaluates : op.opcode.evaluate =
      fun args => Opcode.onWords args fun x y => some (.int (function x y))) :
    OnWords op function :=
  onWords evaluates fun value => (some.inj value).symm

section

variable (computes : OnWords op function) (leftArg : op.args[0]? = some left)
  (rightArg : op.args[1]? = some right)

include computes leftArg rightArg

theorem sound_equals_left
    (leaves : ∀ x y, x ∈ facts.interval left → y ∈ facts.interval right → function x y = x) :
    SoundVerdict heap facts op box (.equals box left) := by
  refine ⟨rfl, fun valuation literal holds computed => ?_⟩
  obtain ⟨x, y, leftValue, rightValue, value⟩ := computes leftArg rightArg computed
  rw [leftValue, value,
    leaves x y (holds.mem_interval leftValue) (holds.mem_interval rightValue)]

theorem sound_equals_right
    (leaves : ∀ x y, x ∈ facts.interval left → y ∈ facts.interval right → function x y = y) :
    SoundVerdict heap facts op box (.equals box right) := by
  refine ⟨rfl, fun valuation literal holds computed => ?_⟩
  obtain ⟨x, y, leftValue, rightValue, value⟩ := computes leftArg rightArg computed
  rw [rightValue, value,
    leaves x y (holds.mem_interval leftValue) (holds.mem_interval rightValue)]

theorem sound_word
    (always : ∀ x y, x ∈ facts.interval left → y ∈ facts.interval right → function x y = word) :
    SoundVerdict heap facts op box (.word box word) := by
  refine ⟨rfl, fun valuation literal holds computed => ?_⟩
  obtain ⟨x, y, leftValue, rightValue, value⟩ := computes leftArg rightArg computed
  rw [value, always x y (holds.mem_interval leftValue) (holds.mem_interval rightValue)]

end

end Words

theorem and_eq_of_covers {mask operand : Interval} {y : Int64} (xMember : x ∈ operand)
    (yMember : y ∈ mask)
    (covers : (match mask.constant? with
      | some word =>
        word == -1 || (operand.isNonnegative && decide (operand.upper ≤ Word.lowOnes word))
      | none => false) = true) : x &&& y = x := by
  split at covers
  next word single =>
    obtain rfl := eq_of_constant? single yMember
    simp only [Bool.or_eq_true, beq_iff_eq, Bool.and_eq_true, decide_eq_true_eq] at covers
    rcases covers with all | ⟨nonnegative, below⟩
    · rw [all, and_neg_one]
    refine and_eq_of_le_lowOnes (nonneg_of_isNonnegative nonnegative xMember) ?_
    rw [le_iff_toInt_le] at below
    have upper := (mem_iff.mp xMember).2
    omega
  · cases covers

theorem sound_simplifyAnd (opcode : op.opcode = .intAnd) (result : op.result = some box) :
    EnsuresValue excuse (facts.simplifyAnd op box) (SoundVerdict heap facts op box) := by
  have computes : OnWords op (· &&& ·) := onWords_total (by rw [opcode]; rfl)
  refine .bind_arg fun left leftArg => ?_
  refine .bind_arg fun right rightArg => ?_
  dsimp only
  split
  next zero =>
    refine sound_word computes leftArg rightArg fun x y xMember yMember => ?_
    rw [Bool.or_eq_true] at zero
    rcases zero with zero | zero
    · rw [eq_of_isExactly zero xMember, Int64.zero_and]
    · rw [eq_of_isExactly zero yMember, Int64.and_zero]
  · split
    next covers =>
      exact sound_equals_left computes leftArg rightArg fun x y xMember yMember =>
        and_eq_of_covers xMember yMember covers
    split
    next covers =>
      refine sound_equals_right computes leftArg rightArg fun x y xMember yMember => ?_
      rw [Int64.and_comm]
      exact and_eq_of_covers yMember xMember covers
    · exact sound_keep result (by rw [opcode]; rfl) true

theorem sound_simplifyZeroOperand {function : Int64 → Int64 → Int64}
    (computes : OnWords op function)
    (leftZero : ∀ y, function 0 y = y) (rightZero : ∀ x, function x 0 = x)
    (integral : op.opcode.isIntegral) (result : op.result = some box) :
    EnsuresValue excuse (facts.simplifyZeroOperand op box) (SoundVerdict heap facts op box) := by
  refine .bind_arg fun left leftArg => ?_
  refine .bind_arg fun right rightArg => ?_
  split
  next zero =>
    refine sound_equals_right computes leftArg rightArg fun x y xMember _ => ?_
    rw [eq_of_isExactly zero xMember, leftZero]
  · split
    next zero =>
      refine sound_equals_left computes leftArg rightArg fun x y _ yMember => ?_
      rw [eq_of_isExactly zero yMember, rightZero]
    · exact sound_keep result integral true

theorem sound_simplifySub (opcode : op.opcode = .intSub) (result : op.result = some box) :
    EnsuresValue excuse (facts.simplifySub op box) (SoundVerdict heap facts op box) := by
  have computes : OnWords op (· - ·) := onWords_total (by rw [opcode]; rfl)
  refine .bind_arg fun left leftArg => ?_
  refine .bind_arg fun right rightArg => ?_
  split
  next zero =>
    refine sound_equals_left computes leftArg rightArg fun x y _ yMember => ?_
    rw [eq_of_isExactly zero yMember, Int64.sub_zero]
  split
  next zero =>
    refine ⟨result, rfl, fun valuation literal holds computed => ?_⟩
    obtain ⟨x, y, leftValue, rightValue, value⟩ := computes leftArg rightArg computed
    dsimp only at value
    rw [value, eq_of_isExactly zero (holds.mem_interval leftValue), Int64.zero_sub]
    exact bind_values_single rightValue .intNeg
  · split
    next same =>
      refine ⟨rfl, fun valuation literal holds computed => ?_⟩
      obtain ⟨x, y, leftValue, rightValue, value⟩ := computes leftArg rightArg computed
      rw [← holds.value_resolve, same, holds.value_resolve, rightValue] at leftValue
      cases leftValue
      exact value.trans (congrArg _ (Int64.sub_self x))
    · exact sound_keep result (by rw [opcode]; rfl) true

theorem shiftForFactor?_eq {factor : Interval}
    (found : shiftForFactor? op factor other = some verdict) :
    ∃ word, factor.constant? = some word ∧ isPowerOfTwo word ∧
      verdict = .cheaper (op.recode .intLeftShift [other, .int (exponent word)]) false := by
  obtain ⟨word, single, found⟩ := bind_eq_some_iff.mp found
  split at found
  next power =>
    cases found
    exact ⟨word, single, power, rfl⟩
  · cases found

theorem shifted_exponent {result : Int64} (power : isPowerOfTwo word) :
    Opcode.shifted (exponent word) result = some (.int result) := by
  obtain ⟨value, below⟩ := toInt_exponent power
  have inside : 0 ≤ exponent word ∧ exponent word < 64 := by
    have sixtyFour : (64 : Int64).toInt = 64 := rfl
    have zero : (0 : Int64).toInt = 0 := rfl
    rw [le_iff_toInt_le, lt_iff_toInt_lt, value]
    omega
  rw [Opcode.shifted, if_pos inside]

theorem computed_shift (evaluates : opcode.evaluate =
      fun args => Opcode.onWords args fun x y => Opcode.shifted y (shift x y))
    (otherValue : valuation.value other = some (.int x)) (power : isPowerOfTwo word) :
    (op.recode opcode [other, .int (exponent word)]).computed valuation =
      some (.int (shift x (exponent word))) := by
  refine (bind_values_pair otherValue rfl opcode).trans ?_
  rw [evaluates]
  exact shifted_exponent power

theorem sound_simplifyMul (opcode : op.opcode = .intMul) (result : op.result = some box) :
    EnsuresValue excuse (facts.simplifyMul op box) (SoundVerdict heap facts op box) := by
  have computes : OnWords op (· * ·) := onWords_total (by rw [opcode]; rfl)
  refine .bind_arg fun left leftArg => ?_
  refine .bind_arg fun right rightArg => ?_
  dsimp only
  split
  next one =>
    refine sound_equals_right computes leftArg rightArg fun x y xMember _ => ?_
    rw [eq_of_isExactly one xMember, one_mul]
  split
  next one =>
    refine sound_equals_left computes leftArg rightArg fun x y _ yMember => ?_
    rw [eq_of_isExactly one yMember, mul_one]
  split
  next zero =>
    refine sound_word computes leftArg rightArg fun x y xMember yMember => ?_
    rw [Bool.or_eq_true] at zero
    rcases zero with zero | zero
    · rw [eq_of_isExactly zero xMember, zero_mul]
    · rw [eq_of_isExactly zero yMember, mul_zero]
  split
  next verdict _ found =>
    obtain ⟨word, single, power, rfl⟩ := shiftForFactor?_eq found
    refine ⟨result, rfl, fun valuation literal holds computed => ?_⟩
    obtain ⟨x, y, leftValue, rightValue, value⟩ := computes leftArg rightArg computed
    obtain rfl := eq_of_constant? single (holds.mem_interval leftValue)
    rw [computed_shift rfl rightValue power, ← mul_eq_shiftLeft y power, Int64.mul_comm, value]
  next verdict _ found =>
    obtain ⟨word, single, power, rfl⟩ := shiftForFactor?_eq found
    refine ⟨result, rfl, fun valuation literal holds computed => ?_⟩
    obtain ⟨x, y, leftValue, rightValue, value⟩ := computes leftArg rightArg computed
    obtain rfl := eq_of_constant? single (holds.mem_interval rightValue)
    rw [computed_shift rfl leftValue power, ← mul_eq_shiftLeft x power, value]
  · exact sound_keep result (by rw [opcode]; rfl) true

/-! ## Rules on partial operations -/

theorem sound_simplifyFloorDiv (opcode : op.opcode = .intFloorDiv) (result : op.result = some box) :
    EnsuresValue excuse (facts.simplifyFloorDiv op box) (SoundVerdict heap facts op box) := by
  have computes : OnWords op (· / ·) := onWords (by rw [opcode]; rfl) (of_nonzero · |>.2)
  have keep : SoundVerdict heap facts op box (.keep op false) :=
    sound_keep result (by rw [opcode]; rfl) false
  refine .bind_arg fun left leftArg => ?_
  refine .bind_arg fun right rightArg => ?_
  dsimp only
  split
  next one =>
    refine sound_equals_left computes leftArg rightArg fun x y _ yMember => ?_
    rw [eq_of_isExactly one yMember, Int64.div_one]
  split
  next zero =>
    rw [Bool.and_eq_true] at zero
    refine sound_word computes leftArg rightArg fun x y xMember _ => ?_
    rw [eq_of_isExactly zero.1 xMember, Int64.zero_div]
  split
  next divisor single =>
    split
    next power =>
      simp only [Bool.and_eq_true, decide_eq_true_eq, lt_iff_toInt_lt] at power
      obtain ⟨⟨nonnegative, positive⟩, power⟩ := power
      refine ⟨result, rfl, fun valuation literal holds computed => ?_⟩
      obtain ⟨x, y, leftValue, rightValue, value⟩ := computes leftArg rightArg computed
      obtain rfl := eq_of_constant? single (holds.mem_interval rightValue)
      have dividend := nonneg_of_isNonnegative nonnegative (holds.mem_interval leftValue)
      dsimp only at value
      rw [computed_shift rfl leftValue power, value, div_eq_shiftRight dividend positive power]
    · exact keep
  · exact keep

theorem sound_simplifyUintFloorDiv (opcode : op.opcode = .uintFloorDiv)
    (result : op.result = some box) :
    EnsuresValue excuse (facts.simplifyUintFloorDiv op box) (SoundVerdict heap facts op box) := by
  have computes : OnWords op fun x y => (x.toUInt64 / y.toUInt64).toInt64 :=
    onWords (by rw [opcode]; rfl) (of_nonzero · |>.2)
  refine .bind_arg fun right rightArg => ?_
  split
  next one =>
    refine .bind_arg fun left leftArg => ?_
    refine sound_equals_left computes leftArg rightArg fun x y _ yMember => ?_
    have unsignedOne : (1 : Int64).toUInt64 = 1 := rfl
    rw [eq_of_isExactly one yMember, unsignedOne, UInt64.div_one, toInt64_toUInt64]
  · exact sound_keep result (by rw [opcode]; rfl) false

theorem sound_simplifyShift (computes : OnWords op shift) (byZero : ∀ x, shift x 0 = x)
    (ofZero : ∀ y, shift 0 y = 0) (integral : op.opcode.isIntegral)
    (result : op.result = some box) :
    EnsuresValue excuse (facts.simplifyShift op box) (SoundVerdict heap facts op box) := by
  refine .bind_arg fun right rightArg => ?_
  split
  next zero =>
    refine .bind_arg fun left leftArg => ?_
    refine sound_equals_left computes leftArg rightArg fun x y _ yMember => ?_
    rw [eq_of_isExactly zero yMember, byZero]
  · refine .bind_arg fun left leftArg => ?_
    split
    next zero =>
      refine sound_word computes leftArg rightArg fun x y xMember _ => ?_
      rw [eq_of_isExactly zero xMember, ofZero]
    · exact sound_keep result integral false

theorem sound_simplifyIsTrue (opcode : op.opcode = .intIsTrue) (result : op.result = some box) :
    EnsuresValue excuse (facts.simplifyIsTrue op box) (SoundVerdict heap facts op box) := by
  refine .bind_arg fun operand operandArg => ?_
  split
  next isBoolean =>
    refine ⟨rfl, fun valuation literal holds computed => ?_⟩
    obtain ⟨x, operandValue, value⟩ :=
      word_of_arg (by rw [opcode]; rfl) operandArg computed
    rw [operandValue, ← value]
    rcases eq_zero_or_one_of_isBoolean isBoolean (holds.mem_interval operandValue) with
      rfl | rfl <;> rfl
  · exact sound_keep result (by rw [opcode]; rfl) false

/-! ## Comparing references -/

theorem Holds.pointer_cases (holds : facts.Holds heap valuation)
    (describes : facts.target.Describes heap) (defined : valuation.value value = some literal) :
    (∃ address, literal = .ref address ∧ (facts.pointer value).Holds heap address) ∨
      facts.pointer value = {} := by
  cases literal with
  | ref address => exact .inl ⟨address, rfl, holds.pointer describes defined⟩
  | int word | float number =>
    right
    rw [← holds.value_resolve] at defined
    unfold Facts.pointer
    cases resolved : facts.resolve value with
    | const known =>
      rw [resolved] at defined
      cases defined
      rfl
    | box box =>
      rw [resolved, value_box] at defined
      dsimp only
      rw [Std.HashMap.getD_eq_getD_getElem?]
      cases found : facts.pointers[box]? with
      | none => rfl
      | some fact =>
        obtain ⟨address, boxValue, _⟩ := holds.pointed box fact found
        rw [boxValue] at defined
        cases defined

section References

variable (describes : facts.target.Describes heap)
include describes

section

variable (holds : facts.Holds heap valuation) (defined : valuation.value value = some literal)

include holds defined

theorem Holds.bits_eq_zero (isNull : (facts.pointer value).isNull) : literal.bits = 0 := by
  rcases holds.pointer_cases describes defined with ⟨address, rfl, fact⟩ | unknown
  · exact fact.eq_zero isNull
  · rw [unknown] at isNull
    cases isNull

theorem Holds.bits_ne_zero (isNonnull : (facts.pointer value).isNonnull) : literal.bits ≠ 0 := by
  rcases holds.pointer_cases describes defined with ⟨address, rfl, fact⟩ | unknown
  · exact fact.ne_zero isNonnull
  · rw [unknown] at isNonnull
    cases isNonnull

theorem Holds.classOf_bits {vtable : UInt64}
    (known : (facts.pointer value).knownClass = some vtable) :
    heap.classOf literal.bits = some vtable := by
  rcases holds.pointer_cases describes defined with ⟨address, rfl, fact⟩ | unknown
  · exact fact.knownClass vtable known
  · rw [unknown] at known
    cases known

theorem Holds.nullTest? {verdict : Bool}
    (decided : Facts.nullTest? (facts.pointer value) negated = some verdict) :
    verdict = ((literal.bits == 0) != negated) := by
  unfold Facts.nullTest? at decided
  split at decided
  next isNonnull =>
    rw [beq_eq_false_iff_ne.mpr (holds.bits_ne_zero describes defined isNonnull)]
    cases decided
    cases negated <;> rfl
  · split at decided
    next isNull =>
      rw [beq_iff_eq.mpr (holds.bits_eq_zero describes defined isNull)]
      cases decided
      cases negated <;> rfl
    · cases decided

end

theorem sound_simplifyPointers {ofInstances : Bool}
    (evaluates : op.opcode.evaluate = fun args => Opcode.onBits args fun x y =>
      some (.truth ((x == y) != negated))) (integral : op.opcode.isIntegral)
    (result : op.result = some box) :
    EnsuresValue excuse (facts.simplifyPointers op box negated ofInstances)
      (SoundVerdict heap facts op box) := by
  refine .bind_arg fun first firstArg => ?_
  refine .bind_arg fun second secondArg => ?_
  dsimp only
  split
  next verdict decided =>
    refine ⟨rfl, fun valuation literal holds computed => ?_⟩
    obtain ⟨literals, defined, evaluated⟩ := bind_eq_some_iff.mp computed
    rw [evaluates] at evaluated
    obtain ⟨x, y, isFirst, isSecond, value⟩ := Opcode.onBits_eq_some.mp evaluated
    rw [values_getElem? defined, firstArg, bind_some,
      ← holds.value_resolve] at isFirst
    rw [values_getElem? defined, secondArg, bind_some,
      ← holds.value_resolve] at isSecond
    -- The verdict is the comparison's truth value, whichever test decided it.
    have truth : verdict = ((x.bits == y.bits) != negated) := by
      split at decided
      next isNull =>
        rw [holds.bits_eq_zero describes isSecond isNull]
        exact holds.nullTest? describes isFirst decided
      split at decided
      next isNull =>
        rw [holds.bits_eq_zero describes isFirst isNull, BEq.comm]
        exact holds.nullTest? describes isSecond decided
      split at decided
      next same =>
        rw [same, isSecond] at isFirst
        cases isFirst
        cases decided
        rw [beq_self_eq_true]
        cases negated <;> rfl
      split at decided
      next leftClass rightClass leftKnown rightKnown =>
        split at decided
        next otherClass =>
          rw [Bool.and_eq_true, bne_iff_ne] at otherClass
          have leftIs := holds.classOf_bits describes isFirst leftKnown
          have rightIs := holds.classOf_bits describes isSecond rightKnown
          have apart : x.bits ≠ y.bits := by
            intro same
            rw [same, rightIs] at leftIs
            exact otherClass.2 (some.inj leftIs).symm
          rw [beq_eq_false_iff_ne.mpr apart]
          cases decided
          cases negated <;> rfl
        · cases decided
      · rw [Bool.and_false] at decided
        cases decided
    rw [truth]
    exact (some.inj value).symm
  · exact sound_keep result integral false

end References

/-! ## Comparisons whose inverse or mirror image is known -/

theorem sound_decidedInverse? {inverse : Opcode} {first second : Value}
    (isInverse : opcode.inverse? = some inverse)
    (computes : ∀ valuation, facts.Holds heap valuation →
      (valuation.values [first, second]).bind opcode.evaluate = op.computed valuation)
    (found : decidedInverse? facts box (some inverse) [first, second] = some verdict) :
    SoundVerdict heap facts op box verdict := by
  obtain ⟨value, known, found⟩ := bind_eq_some_iff.mp found
  -- The known result is the opposite truth value, so an interval of one word decides this one.
  have opposite : ∀ valuation literal, facts.Holds heap valuation →
      op.computed valuation = some literal → ∃ truth, literal = .truth truth ∧
        (if truth then 0 else 1 : Int64) ∈ facts.interval value := by
    intro valuation literal holds computed
    rw [← computes valuation holds] at computed
    obtain ⟨literals, defined, evaluated⟩ := bind_eq_some_iff.mp computed
    obtain ⟨truth, isTruth, inverted⟩ := Opcode.evaluate_inverse isInverse evaluated
    obtain ⟨other, otherComputed, valueIs⟩ := holds.computed _ _ _ known
    rw [defined, bind_some, inverted] at otherComputed
    cases otherComputed
    refine ⟨truth, isTruth, ?_⟩
    have member := holds.mem_interval valueIs
    cases truth <;> exact member
  dsimp only at found
  split at found
  next one =>
    cases found
    refine ⟨rfl, fun valuation literal holds computed => ?_⟩
    obtain ⟨truth, rfl, member⟩ := opposite valuation literal holds computed
    cases truth with
    | false => rfl
    | true => cases eq_of_isExactly one member
  · split at found
    next zero =>
      cases found
      refine ⟨rfl, fun valuation literal holds computed => ?_⟩
      obtain ⟨truth, rfl, member⟩ := opposite valuation literal holds computed
      cases truth with
      | false => cases eq_of_isExactly zero member
      | true => rfl
    · cases found

theorem sound_simplifyComparison? (integral : op.opcode.isIntegral)
    (result : op.result = some box) (found : facts.simplifyComparison? op = some verdict) :
    SoundVerdict heap facts op box verdict := by
  unfold simplifyComparison? at found
  split at found
  next defined left right isResult args =>
    cases result.symm.trans isResult
    have direct : ∀ valuation, facts.Holds heap valuation →
        (valuation.values [facts.resolve left, facts.resolve right]).bind op.opcode.evaluate =
          op.computed valuation := by
      intro valuation holds
      rw [computed, args, ← holds.values_resolve [left, right]]
      rfl
    have mirrored : ∀ {reflex : Opcode}, op.opcode.reflex? = some reflex →
        ∀ valuation, facts.Holds heap valuation →
          (valuation.values [facts.resolve right, facts.resolve left]).bind reflex.evaluate =
            op.computed valuation := by
      intro reflex isReflex valuation holds
      rw [← direct valuation holds]
      cases leftValue : valuation.value (facts.resolve left) <;>
        cases rightValue : valuation.value (facts.resolve right) <;>
        simp [values, leftValue, rightValue,
          Opcode.evaluate_reflex integral isReflex]
    simp only [orElse_eq_orElse, orElse_eq_or, or_eq_some_iff] at found
    rcases found with decided | ⟨_, named | ⟨_, decided⟩⟩
    · cases isInverse : op.opcode.inverse? with
      | none =>
        rw [isInverse] at decided
        cases decided
      | some inverse =>
        rw [isInverse] at decided
        exact sound_decidedInverse? isInverse direct decided
    · obtain ⟨reflex, isReflex, named⟩ := bind_eq_some_iff.mp named
      obtain ⟨value, known, named⟩ := bind_eq_some_iff.mp named
      cases named
      refine ⟨rfl, fun valuation literal holds computed => ?_⟩
      obtain ⟨other, otherComputed, valueIs⟩ := holds.computed _ _ _ known
      rw [mirrored isReflex valuation holds, computed] at otherComputed
      cases otherComputed
      exact valueIs
    · cases isReflex : op.opcode.reflex? with
      | none =>
        rw [isReflex] at decided
        cases decided
      | some reflex =>
        rw [isReflex, bind_some] at decided
        cases isInverse : reflex.inverse? with
        | none =>
          rw [isInverse] at decided
          cases decided
        | some inverse =>
          rw [isInverse] at decided
          exact sound_decidedInverse? isInverse (mirrored isReflex) decided
  · cases found

/-! ## All rules -/

section

variable (describes : op.opcode.isPointerComparison → facts.target.Describes heap)
  (integral : op.opcode.isIntegral) (result : op.result = some box)

include describes integral result

theorem sound_simplifyResult :
    EnsuresValue excuse (facts.simplifyResult op box) (SoundVerdict heap facts op box) := by
  unfold simplifyResult
  cases opcode : op.opcode with
  | intAnd => exact sound_simplifyAnd opcode result
  | intOr =>
    exact sound_simplifyZeroOperand (onWords_total (by rw [opcode]; rfl)) (fun _ => Int64.zero_or)
      (fun _ => Int64.or_zero) integral result
  | intXor =>
    exact sound_simplifyZeroOperand (onWords_total (by rw [opcode]; rfl)) (fun _ => Int64.zero_xor)
      (fun _ => Int64.xor_zero) integral result
  | intAdd =>
    exact sound_simplifyZeroOperand (onWords_total (by rw [opcode]; rfl)) Int64.zero_add
      Int64.add_zero integral result
  | intSub => exact sound_simplifySub opcode result
  | intMul => exact sound_simplifyMul opcode result
  | intFloorDiv => exact sound_simplifyFloorDiv opcode result
  | uintFloorDiv => exact sound_simplifyUintFloorDiv opcode result
  | intLeftShift =>
    exact sound_simplifyShift (onWords (by rw [opcode]; rfl) (of_shifted · |>.2))
      (fun _ => shiftLeft_zero) (fun _ => zero_shiftLeft) integral result
  | intRightShift =>
    exact sound_simplifyShift (onWords (by rw [opcode]; rfl) (of_shifted · |>.2))
      (fun _ => shiftRight_zero) (fun _ => zero_shiftRight) integral result
  | uintRightShift =>
    refine sound_simplifyShift (onWords (by rw [opcode]; rfl) (of_shifted · |>.2))
      (fun x => ?_) (fun y => ?_) integral result
    · have zero : (0 : Int64).toUInt64 = 0 := rfl
      rw [zero, UInt64.shiftRight_zero, toInt64_toUInt64]
    · have zero : (0 : Int64).toUInt64 = 0 := rfl
      rw [zero, UInt64.zero_shiftRight]
      rfl
  | intIsTrue => exact sound_simplifyIsTrue opcode result
  | ptrEq | instancePtrEq =>
    refine sound_simplifyPointers (describes (by rw [opcode]; rfl)) ?_ integral result
    rw [opcode]
    funext args
    simp [Opcode.evaluate]
  | ptrNe | instancePtrNe =>
    refine sound_simplifyPointers (describes (by rw [opcode]; rfl)) ?_ integral result
    rw [opcode]
    funext args
    simp [Opcode.evaluate, bne]
  | sameAs =>
    refine .bind_arg fun operand operandArg => ?_
    refine ⟨rfl, fun valuation literal holds computed => ?_⟩
    obtain ⟨literals, defined, evaluated⟩ := bind_eq_some_iff.mp computed
    rw [opcode] at evaluated
    change literals[0]? = some literal at evaluated
    rw [values_getElem? defined, operandArg] at evaluated
    exact evaluated
  | floatMul | floatAdd | floatSub | floatNeg | castPtrToInt | castIntToPtr =>
    rw [opcode] at integral
    cases integral
  | _ => exact sound_keep result integral false

theorem sound_simplify :
    EnsuresValue excuse (facts.simplify op) (SoundVerdict heap facts op box) := by
  have isResult : facts.simplify op = facts.simplifyResult op box := by
    unfold simplify
    rw [result]
    cases opcode : op.opcode with
    | floatTrueDiv =>
      rw [opcode] at integral
      cases integral
    | _ => rfl
  rw [isResult]
  exact sound_simplifyResult describes integral result

end

end Facts

/-! ## Carrying a verdict out -/

namespace Peephole

open Facts

variable {heap : Heap} {op : Operation} {box : Box} {excuse : Prop}

section

variable (heap) (walk : Peephole) (result : op.result = some box)
  (integral : op.opcode.isIntegral)

include result integral

theorem emit_defines : Ensures excuse (emit op) walk fun _ after =>
      Defines heap walk.facts after.facts box op.computed := by
  refine .bind_onFacts (Facts.emit_defines heap walk.facts integral result) ?_
  rintro appended after (⟨_, replaces⟩ | ⟨_, appends⟩)
  · exact .inl replaces
  · exact .inr ⟨_, appends⟩

theorem emitReversible_defines : Ensures excuse (emitReversible op) walk fun _ after =>
      Defines heap walk.facts after.facts box op.computed := by
  refine .bind_onFacts (Facts.emit_defines heap walk.facts integral result) ?_
  rintro appended after (⟨rfl, replaces⟩ | ⟨rfl, appends⟩)
  · exact .inl replaces
  · exact .onFacts ((recordReverseOfLast_appends appends).weaken
      fun _ _ appends => .inr ⟨_, appends⟩)

end

/-- Carrying out a true verdict gives the result the value that the operation computes. -/
theorem perform_defines (walk : Peephole) (sound : SoundVerdict heap walk.facts op box verdict) :
    Ensures excuse (perform verdict) walk fun _ after =>
      Defines heap walk.facts after.facts box op.computed := by
  cases verdict with
  | keep new reversible =>
    obtain ⟨result, integral, agree⟩ := sound
    cases reversible with
    | false =>
      exact (emit_defines heap walk result integral).weaken fun _ _ defines =>
        defines.weaken agree
    | true =>
      exact (emitReversible_defines heap walk result integral).weaken fun _ _ defines =>
        defines.weaken agree
  | cheaper new reversible =>
    obtain ⟨result, integral, agree⟩ := sound
    refine .bind_updateStats ?_
    cases reversible with
    | false =>
      exact (emit_defines heap { walk with stats := _ } result integral).weaken
        fun _ _ defines => defines.weaken agree
    | true =>
      exact (emitReversible_defines heap { walk with stats := _ } result integral).weaken
        fun _ _ defines => defines.weaken agree
  | equals result value =>
    obtain ⟨rfl, agree⟩ := sound
    exact .inl (replaces_makeEqual agree)
  | names result value =>
    obtain ⟨rfl, agree⟩ := sound
    exact .inl (replaces_makeEqual agree)
  | word result word =>
    obtain ⟨rfl, agree⟩ := sound
    exact .inl (replaces_makeConstant agree)
  | nothing => exact sound.elim

end Peephole

end LinearTrace
