import LinearTrace.Proofs.Facts

/-!
# Intervals of results hold

The interval of an operation's result, computed from the facts, holds the word
that the operation computes; an operation that does not compute a word has no
interval.
-/

namespace LinearTrace

open Option LinearTrace.Interval Operation Opcode LinearTrace.Const

variable {verdict same : Bool} {word x y : Int64} {opcode : Opcode} {interval left right : Interval}

namespace Interval

/-- The interval holds a word; of other constants nothing is known. -/
def Covers (interval : Interval) : Const → Prop
  | .int word => word ∈ interval
  | _ => interval = .unbounded

theorem covers_unbounded (literal : Const) : unbounded.Covers literal := by
  cases literal with
  | int word => exact mem_unbounded word
  | float value => rfl
  | ref address => rfl

theorem eq_of_covers_constant {literal : Const} (covers : interval.Covers literal)
    (single : interval.constant? = some word) : literal = .int word := by
  cases literal with
  | int value => rw [eq_of_constant? single covers]
  | float value =>
    cases covers
    cases single
  | ref address =>
    cases covers
    cases single

/-! ## Truth values -/

theorem covers_boolean (verdict : Bool) : boolean.Covers (.truth verdict) := by
  cases verdict with
  | false => exact mem_mk.mpr ⟨by decide, by decide⟩
  | true => exact mem_mk.mpr ⟨by decide, by decide⟩

theorem covers_decided {isTrue isFalse : Bool} (whenTrue : isTrue → verdict)
    (whenFalse : isFalse → verdict = false) : (decided isTrue isFalse).Covers (.truth verdict) := by
  unfold decided
  split
  next known =>
    rw [whenTrue known]
    exact mem_constant 1
  · split
    next known =>
      rw [whenFalse known]
      exact mem_constant 0
    · exact covers_boolean verdict

section

variable (xMember : x ∈ left) (yMember : y ∈ right)

include xMember yMember

theorem eq_of_known (oneValue : same → x = y)
    (known : (same || (left.isConstant && left == right)) = true) : x = y := by
  simp only [Bool.or_eq_true, Bool.and_eq_true, beq_iff_eq, isConstant] at known
  rcases known with known | ⟨single, rfl⟩
  · exact oneValue known
  rw [mem_iff, single] at xMember
  rw [mem_iff, single] at yMember
  apply Int64.toInt.inj
  omega

theorem ne_of_known (known : (left.allLt right || left.allGt right) = true) : x ≠ y := by
  rintro rfl
  rw [Bool.or_eq_true] at known
  rcases known with below | above
  · exact Int.lt_irrefl _ (lt_of_allLt below xMember yMember)
  · exact Int.lt_irrefl _ (lt_of_allLt above yMember xMember)

theorem covers_compare (oneValue : same → x = y)
    (evaluated : opcode.evaluate [.int x, .int y] = some (.truth verdict)) :
    (compare opcode left right same).Covers (.truth verdict) := by
  have below : left.allLt right = true → x.toInt < y.toInt :=
    fun known => lt_of_allLt known xMember yMember
  have above : left.allGt right = true → y.toInt < x.toInt :=
    fun known => lt_of_allLt known yMember xMember
  have atMost : (left.allLe right || same) = true → x.toInt ≤ y.toInt := by
    intro known
    rw [Bool.or_eq_true] at known
    rcases known with known | known
    · exact le_of_allLe known xMember yMember
    · rw [oneValue known]
  have atLeast : (left.allGe right || same) = true → y.toInt ≤ x.toInt := by
    intro known
    rw [Bool.or_eq_true] at known
    rcases known with known | known
    · exact le_of_allLe known yMember xMember
    · rw [oneValue known]
  have equal := eq_of_known xMember yMember oneValue
  have apart := ne_of_known xMember yMember
  cases opcode with
  | intLt =>
    obtain rfl := truth_inj (some.inj evaluated)
    exact covers_decided (fun known => decide_eq_true (Int64.lt_iff_toInt_lt.mpr (below known)))
      (fun known =>
        decide_eq_false (Int64.not_lt.mpr (Int64.le_iff_toInt_le.mpr (atLeast known))))
  | intLe =>
    obtain rfl := truth_inj (some.inj evaluated)
    exact covers_decided (fun known => decide_eq_true (Int64.le_iff_toInt_le.mpr (atMost known)))
      (fun known => decide_eq_false (Int64.not_le.mpr (Int64.lt_iff_toInt_lt.mpr (above known))))
  | intGt =>
    obtain rfl := truth_inj (some.inj evaluated)
    exact covers_decided (fun known => decide_eq_true (Int64.lt_iff_toInt_lt.mpr (above known)))
      (fun known => decide_eq_false (Int64.not_lt.mpr (Int64.le_iff_toInt_le.mpr (atMost known))))
  | intGe =>
    obtain rfl := truth_inj (some.inj evaluated)
    exact covers_decided (fun known => decide_eq_true (Int64.le_iff_toInt_le.mpr (atLeast known)))
      (fun known =>
        decide_eq_false (Int64.not_le.mpr (Int64.lt_iff_toInt_lt.mpr (below known))))
  | intEq =>
    obtain rfl := truth_inj (some.inj evaluated)
    exact covers_decided (fun known => beq_iff_eq.mpr (equal known))
      (fun known => beq_eq_false_iff_ne.mpr (apart known))
  | intNe =>
    obtain rfl := truth_inj (some.inj evaluated)
    exact covers_decided (fun known => bne_iff_ne.mpr (apart known))
      (fun known => bne_eq_false_iff_eq.mpr (equal known))
  | _ => exact covers_boolean verdict

end

theorem covers_isTrue (member : x ∈ interval) :
    (decided interval.excludesZero (interval.isExactly 0)).Covers (.truth (x != 0)) :=
  covers_decided (fun known => bne_iff_ne.mpr (ne_zero_of_excludesZero known member))
    (fun known => bne_eq_false_iff_eq.mpr (eq_of_isExactly known member))

theorem covers_isZero (member : x ∈ interval) :
    (decided (interval.isExactly 0) interval.excludesZero).Covers (.truth (x == 0)) :=
  covers_decided (fun known => beq_iff_eq.mpr (eq_of_isExactly known member))
    (fun known => beq_eq_false_iff_ne.mpr (ne_zero_of_excludesZero known member))

theorem covers_unsigned {signed : Opcode} (isSigned : opcode.signedForm? = some signed)
    (nonnegative : (left.isNonnegative && right.isNonnegative) = true) (xMember : x ∈ left)
    (yMember : y ∈ right) (oneValue : same → x = y)
    (evaluated : opcode.evaluate [.int x, .int y] = some (.truth verdict)) :
    (compare signed left right same).Covers (.truth verdict) := by
  rw [Bool.and_eq_true] at nonnegative
  refine covers_compare xMember yMember oneValue ?_
  rw [← evaluate_signedForm isSigned (nonneg_of_isNonnegative nonnegative.1 xMember)
    (nonneg_of_isNonnegative nonnegative.2 yMember)]
  exact evaluated

end Interval

namespace Facts

variable {heap : Heap} {valuation : Valuation} {facts : Facts} {op : Operation} {literal : Const}
  {excuse : Prop}

/-! ## Operands -/

theorem eq_of_sameArgs {left right : Value} (same : sameArgs op) (leftArg : op.args[0]? = some left)
    (rightArg : op.args[1]? = some right) (leftValue : valuation.value left = some (.int x))
    (rightValue : valuation.value right = some (.int y)) : x = y := by
  unfold sameArgs at same
  split at same
  next first second args =>
    rw [args] at leftArg rightArg
    cases leftArg
    cases rightArg
    rw [beq_iff_eq.mp same, rightValue] at leftValue
    cases leftValue
    rfl
  · cases same

theorem Holds.binaryInterval (holds : facts.Holds heap valuation)
    {function : Int64 → Int64 → Option Const} {transfer : Interval → Interval → Interval}
    (evaluates : op.opcode.evaluate = fun args => onWords args function)
    (computed : op.computed valuation = some literal)
    (sound : ∀ {x y : Int64} {left right : Interval}, x ∈ left → y ∈ right →
      (sameArgs op = true → x = y) → function x y = some literal →
      (transfer left right).Covers literal) :
    EnsuresValue excuse (facts.binaryInterval op transfer) (·.Covers literal) := by
  obtain ⟨left, right, x, y, leftArg, rightArg, leftValue, rightValue, value⟩ :=
    words_of_computed evaluates computed
  unfold Facts.binaryInterval argInterval arg
  rw [leftArg, rightArg]
  exact sound (holds.mem_interval leftValue) (holds.mem_interval rightValue)
    (fun same => eq_of_sameArgs same leftArg rightArg leftValue rightValue) value

theorem Holds.unaryInterval (holds : facts.Holds heap valuation) {function : Int64 → Option Const}
    {transfer : Interval → Interval}
    (evaluates : op.opcode.evaluate = fun args => onWord args function)
    (computed : op.computed valuation = some literal)
    (sound : ∀ {x : Int64} {interval : Interval}, x ∈ interval → function x = some literal →
      (transfer interval).Covers literal) :
    EnsuresValue excuse (facts.unaryInterval op transfer) (·.Covers literal) := by
  obtain ⟨operand, x, operandArg, operandValue, value⟩ :=
    word_of_computed evaluates computed
  unfold Facts.unaryInterval argInterval arg
  rw [operandArg]
  exact sound (holds.mem_interval operandValue) value

/-! ## Results -/

theorem of_shifted {amount result : Int64} (value : shifted amount result = some literal) :
    (0 ≤ amount.toInt ∧ amount.toInt < 64) ∧ literal = .int result := by
  unfold shifted at value
  split at value
  next inside =>
    rw [Int64.le_iff_toInt_le, Int64.lt_iff_toInt_lt] at inside
    cases value
    exact ⟨inside, rfl⟩
  · cases value

theorem of_nonzero {divisor : Int64} {result : Const}
    (value : (if divisor = 0 then none else some result) = some literal) :
    divisor ≠ 0 ∧ literal = result := by
  split at value
  · cases value
  next nonzero =>
    cases value
    exact ⟨nonzero, rfl⟩

theorem of_signExtended {bytes : Int64} (value : signExtended word bytes = some literal) :
    ∃ result, literal = .int result := by
  unfold signExtended at value
  split at value
  · cases value
    exact ⟨_, rfl⟩
  split at value
  · cases value
    exact ⟨_, rfl⟩
  · cases value

/-- The computed interval holds what the operation computes. -/
theorem Holds.resultInterval (holds : facts.Holds heap valuation)
    (computed : op.computed valuation = some literal) :
    EnsuresValue excuse (facts.resultInterval op) (·.Covers literal) := by
  have literalOf : ∀ {result : Const}, some result = some literal → literal = result :=
    fun value => (some.inj value).symm
  have undefined : ∀ {post : Prop}, op.opcode.evaluate = (fun _ => none) → post := by
    intro post never
    obtain ⟨literals, _, evaluated⟩ := bind_eq_some_iff.mp computed
    rw [never] at evaluated
    cases evaluated
  -- A word that the operation computes lies in the interval of the results.
  have onWords {function : Int64 → Int64 → Option Const} {result : Int64 → Int64 → Int64}
      {transfer : Interval → Interval → Interval}
      (evaluates : op.opcode.evaluate = fun args => Opcode.onWords args function)
      (isResult : ∀ {x y}, function x y = some literal → literal = .int (result x y))
      (sound : ∀ {x y : Int64} {left right : Interval}, x ∈ left → y ∈ right →
        result x y ∈ transfer left right) :
      EnsuresValue excuse (facts.binaryInterval op transfer) (·.Covers literal) := by
    refine holds.binaryInterval evaluates computed fun xMember yMember _ value => ?_
    rw [isResult value]
    exact sound xMember yMember
  unfold Facts.resultInterval
  cases opcode : op.opcode with
  | intAdd => exact onWords (by rw [opcode]; rfl) literalOf mem_add
  | intSub | intXor =>
    dsimp only
    split
    next same =>
      obtain ⟨left, right, x, y, leftArg, rightArg, leftValue, rightValue, value⟩ :=
        words_of_computed (by rw [opcode]; rfl) computed
      simp only [literalOf value, eq_of_sameArgs same leftArg rightArg leftValue rightValue,
        Int64.sub_self, Int64.xor_self]
      exact mem_constant 0
    · first
        | exact onWords (by rw [opcode]; rfl) literalOf mem_sub
        | exact onWords (by rw [opcode]; rfl) literalOf mem_xor
  | intMul => exact onWords (by rw [opcode]; rfl) literalOf mem_mul
  | intAnd => exact onWords (by rw [opcode]; rfl) literalOf mem_and
  | intOr => exact onWords (by rw [opcode]; rfl) literalOf mem_or
  | intLeftShift => exact onWords (by rw [opcode]; rfl) (of_shifted · |>.2) mem_leftShift
  | intRightShift => exact onWords (by rw [opcode]; rfl) (of_shifted · |>.2) mem_rightShift
  | uintRightShift =>
    refine holds.binaryInterval (by rw [opcode]; rfl) computed fun xMember yMember _ value => ?_
    obtain ⟨⟨lower, upper⟩, rfl⟩ := of_shifted value
    exact mem_uintRightShift xMember yMember lower upper
  | intFloorDiv => exact onWords (by rw [opcode]; rfl) (of_nonzero · |>.2) mem_floorDiv
  | intMod => exact onWords (by rw [opcode]; rfl) (of_nonzero · |>.2) mem_modulo
  | intNeg =>
    refine holds.unaryInterval (by rw [opcode]; rfl) computed fun xMember value => ?_
    rw [literalOf value]
    exact mem_neg xMember
  | intSignExtend =>
    refine holds.binaryInterval (by rw [opcode]; rfl) computed fun xMember yMember _ value => ?_
    obtain ⟨result, rfl⟩ := of_signExtended value
    exact mem_signExtend xMember yMember value
  | intIsTrue =>
    refine holds.unaryInterval (by rw [opcode]; rfl) computed fun xMember value => ?_
    rw [literalOf value]
    exact covers_isTrue xMember
  | intIsZero =>
    refine holds.unaryInterval (by rw [opcode]; rfl) computed fun xMember value => ?_
    rw [literalOf value]
    exact covers_isZero xMember
  | intLt | intLe | intGt | intGe | intEq | intNe =>
    refine holds.binaryInterval (by rw [opcode]; rfl) computed fun xMember yMember same value => ?_
    rw [literalOf value]
    exact covers_compare xMember yMember same rfl
  | uintLt | uintLe | uintGt | uintGe =>
    refine holds.binaryInterval (by rw [opcode]; rfl) computed fun xMember yMember same value => ?_
    rw [literalOf value]
    split
    next signed nonnegative isSigned =>
      exact covers_unsigned isSigned nonnegative xMember yMember same rfl
    · exact covers_boolean _
  | floatLt | floatLe | floatEq | floatNe | floatGt | floatGe
  | ptrEq | ptrNe | instancePtrEq | instancePtrNe =>
    obtain ⟨literals, _, evaluated⟩ := bind_eq_some_iff.mp computed
    rw [opcode] at evaluated
    obtain ⟨x, _, evaluated⟩ := bind_eq_some_iff.mp evaluated
    obtain ⟨y, _, evaluated⟩ := bind_eq_some_iff.mp evaluated
    rw [literalOf evaluated]
    exact covers_boolean _
  | arrayLength => exact undefined (by rw [opcode]; rfl)
  | getArrayItemGc | getArrayItemRaw | rawLoad => exact undefined (by rw [opcode]; rfl)
  | _ => exact covers_unbounded literal

end Facts

end LinearTrace
