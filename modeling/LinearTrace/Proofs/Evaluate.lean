import LinearTrace.Proofs.Run
import LinearTrace.Proofs.Word

/-!
# Laws of evaluation

What it means that an operation has a value, and how the values of related
comparisons are related: of a comparison and its inverse, of a comparison and its
mirror image, and of an unsigned comparison and its signed form.
-/

namespace LinearTrace

open Option

variable {left right operand : Value} {x : Const} {opcode : Opcode}
  {function : Int64 → Int64 → Option Const}

theorem Const.truth_inj {left right : Bool} (same : Const.truth left = Const.truth right) :
    left = right := by
  cases left <;> cases right <;> first | rfl | cases same

namespace Opcode

/-- Computes a word from words, or names a value. -/
def isIntegerOperation : Opcode → Bool
  | .intAdd | .intSub | .intMul | .intAnd | .intOr | .intXor | .intLeftShift | .intRightShift
  | .uintRightShift | .intFloorDiv | .uintFloorDiv | .intMod | .intNeg | .intInvert
  | .intSignExtend | .intIsTrue | .intIsZero | .intLt | .intLe | .intEq | .intNe | .intGt
  | .intGe | .uintLt | .uintLe | .uintGt | .uintGe | .sameAs => true
  | _ => false

def isPointerComparison : Opcode → Bool
  | .ptrEq | .ptrNe | .instancePtrEq | .instancePtrNe => true
  | _ => false

/-- Computes a word without a float operand, or names a value. -/
def isIntegral (opcode : Opcode) : Bool :=
  opcode.isIntegerOperation || opcode.isPointerComparison

theorem noComparison_of_isIntegerOperation {opcode : Opcode}
    (isInteger : opcode.isIntegerOperation) : ¬ opcode.isPointerComparison = true := by
  revert isInteger
  cases opcode <;> decide

/-! ## Operands -/

variable {args : List Const} {literal : Const}

theorem wordAt_eq_some {position : Nat} {word : Int64} :
    wordAt args position = some word ↔ args[position]? = some (.int word) := by
  unfold wordAt
  cases args[position]? with
  | none => simp
  | some found => cases found <;> simp [Const.int?]

theorem onWords_eq_some : onWords args function = some literal ↔
      ∃ x y, args[0]? = some (.int x) ∧ args[1]? = some (.int y) ∧ function x y = some literal := by
  simp only [onWords, bind_eq_bind, bind_eq_some_iff, wordAt_eq_some]
  constructor
  · rintro ⟨x, first, y, second, value⟩
    exact ⟨x, y, first, second, value⟩
  · rintro ⟨x, y, first, second, value⟩
    exact ⟨x, first, y, second, value⟩

theorem onWord_eq_some {function : Int64 → Option Const} : onWord args function = some literal ↔
      ∃ x, args[0]? = some (.int x) ∧ function x = some literal := by
  simp only [onWord, bind_eq_bind, bind_eq_some_iff, wordAt_eq_some]

theorem onBits_eq_some {function : UInt64 → UInt64 → Option Const} :
    onBits args function = some literal ↔
      ∃ left right, args[0]? = some left ∧ args[1]? = some right ∧
        function left.bits right.bits = some literal := by
  simp only [onBits, bind_eq_bind, bind_eq_some_iff]
  constructor
  · rintro ⟨left, first, right, second, value⟩
    exact ⟨left, right, first, second, value⟩
  · rintro ⟨left, right, first, second, value⟩
    exact ⟨left, first, right, second, value⟩

/-! ## Comparisons -/

/-- Two truth values that two operands decide in opposite ways. -/
theorem truth_negated {α : Type} {first second : Option α} {holds fails : α → α → Bool}
    (opposite : ∀ x y, fails x y = !holds x y)
    (evaluated : (do some (Const.truth (holds (← first) (← second)))) = some literal) :
    ∃ verdict, literal = .truth verdict ∧
      (do some (Const.truth (fails (← first) (← second)))) = some (.truth !verdict) := by
  obtain ⟨x, rfl, ofFirst⟩ := bind_eq_some_iff.mp evaluated
  obtain ⟨y, rfl, value⟩ := bind_eq_some_iff.mp ofFirst
  exact ⟨holds x y, (some.inj value).symm, congrArg (some ∘ Const.truth) (opposite x y)⟩

theorem decide_eq_not {p q : Prop} [Decidable p] [Decidable q] (opposite : ¬ p ↔ q) :
    decide q = !decide p := by
  rw [← decide_not, decide_eq_decide]
  exact opposite.symm

theorem evaluate_inverse {inverse : Opcode} (isInverse : opcode.inverse? = some inverse)
    (evaluated : opcode.evaluate args = some literal) :
    ∃ verdict, literal = .truth verdict ∧ inverse.evaluate args = some (.truth !verdict) := by
  cases opcode with
  | intEq | ptrEq | instancePtrEq | floatEq =>
    cases isInverse
    exact truth_negated (fun _ _ => rfl) evaluated
  | intNe | ptrNe | instancePtrNe | floatNe =>
    cases isInverse
    exact truth_negated (fun _ _ => (Bool.not_not _).symm) evaluated
  | intLt | intGt =>
    cases isInverse
    exact truth_negated (fun _ _ => decide_eq_not Int64.not_lt) evaluated
  | intGe | intLe =>
    cases isInverse
    exact truth_negated (fun _ _ => decide_eq_not Int64.not_le) evaluated
  | uintLt | uintGt =>
    cases isInverse
    exact truth_negated (fun _ _ => decide_eq_not UInt64.not_lt) evaluated
  | uintGe | uintLe =>
    cases isInverse
    exact truth_negated (fun _ _ => decide_eq_not UInt64.not_le) evaluated
  | _ => cases isInverse

/-- The mirror image of a comparison agrees with it on swapped operands. -/
theorem evaluate_reflex {reflex : Opcode} (integral : opcode.isIntegral)
    (isReflex : opcode.reflex? = some reflex) (left right : Const) :
    reflex.evaluate [right, left] = opcode.evaluate [left, right] := by
  have words : ∀ {function mirrored : Int64 → Int64 → Option Const},
      (∀ x y, mirrored y x = function x y) →
        onWords [right, left] mirrored = onWords [left, right] function := by
    intro function mirrored agree
    cases left with
    | int x =>
      cases right with
      | int y => exact agree x y
      | _ => rfl
    | _ => cases right <;> rfl
  have bits : (right.bits == left.bits) = (left.bits == right.bits) := BEq.comm
  cases opcode with
  | intEq =>
    cases isReflex
    exact words fun x y => congrArg (fun truth => some (Const.truth truth)) BEq.comm
  | intNe =>
    cases isReflex
    exact words fun x y => congrArg (fun truth => some (Const.truth !truth)) BEq.comm
  | intLt | intGt | intLe | intGe | uintLt | uintGt | uintLe | uintGe =>
    cases isReflex
    exact words fun _ _ => rfl
  | ptrEq | instancePtrEq =>
    cases isReflex
    exact congrArg (fun truth => some (Const.truth truth)) bits
  | ptrNe | instancePtrNe =>
    cases isReflex
    exact congrArg (fun truth => some (Const.truth !truth)) bits
  | floatEq | floatNe | floatLt | floatGt | floatLe | floatGe => cases integral
  | _ => cases isReflex

/-- On words that are not negative an unsigned comparison agrees with its signed form. -/
theorem evaluate_signedForm {signed : Opcode} (isSigned : opcode.signedForm? = some signed)
    {x y : Int64} (xNonnegative : 0 ≤ x.toInt) (yNonnegative : 0 ≤ y.toInt) {rest : List Const} :
    opcode.evaluate (.int x :: .int y :: rest) = signed.evaluate (.int x :: .int y :: rest) := by
  have xValue := Word.toInt_eq_pattern xNonnegative
  have yValue := Word.toInt_eq_pattern yNonnegative
  have less : ∀ {a b : Int64}, a.toInt = Word.pattern a → b.toInt = Word.pattern b →
      (a.toUInt64 < b.toUInt64 ↔ a < b) := by
    intro a b aValue bValue
    rw [Int64.lt_iff_toInt_lt, aValue, bValue, UInt64.lt_iff_toNat_lt, Int.ofNat_lt]
    rfl
  have atMost : ∀ {a b : Int64}, a.toInt = Word.pattern a → b.toInt = Word.pattern b →
      (a.toUInt64 ≤ b.toUInt64 ↔ a ≤ b) := by
    intro a b aValue bValue
    rw [Int64.le_iff_toInt_le, aValue, bValue, UInt64.le_iff_toNat_le, Int.ofNat_le]
    rfl
  have decided : ∀ {p q : Prop} [Decidable p] [Decidable q], (p ↔ q) →
      some (Const.truth (decide p)) = some (Const.truth (decide q)) :=
    fun agree => congrArg (fun truth => some (Const.truth truth)) (decide_eq_decide.mpr agree)
  cases opcode with
  | uintLt => cases isSigned; exact decided (less xValue yValue)
  | uintLe => cases isSigned; exact decided (atMost xValue yValue)
  | uintGt => cases isSigned; exact decided (less yValue xValue)
  | uintGe => cases isSigned; exact decided (atMost yValue xValue)
  | _ => cases isSigned

end Opcode

/-! ## Operations with a value -/

namespace Operation

variable {op : Operation} {valuation : Valuation} {literal : Const}

theorem words_of_computed
    (evaluates : op.opcode.evaluate = fun args => Opcode.onWords args function)
    (computed : op.computed valuation = some literal) :
    ∃ left right x y, op.args[0]? = some left ∧ op.args[1]? = some right ∧
      valuation.value left = some (.int x) ∧ valuation.value right = some (.int y) ∧
      function x y = some literal := by
  obtain ⟨literals, defined, evaluated⟩ := bind_eq_some_iff.mp computed
  rw [evaluates] at evaluated
  obtain ⟨x, y, first, second, value⟩ := Opcode.onWords_eq_some.mp evaluated
  rw [Valuation.values_getElem? defined] at first second
  obtain ⟨left, leftArg, leftValue⟩ := bind_eq_some_iff.mp first
  obtain ⟨right, rightArg, rightValue⟩ := bind_eq_some_iff.mp second
  exact ⟨left, right, x, y, leftArg, rightArg, leftValue, rightValue, value⟩

theorem words_of_args (evaluates : op.opcode.evaluate = fun args => Opcode.onWords args function)
    (leftArg : op.args[0]? = some left) (rightArg : op.args[1]? = some right)
    (computed : op.computed valuation = some literal) :
    ∃ x y, valuation.value left = some (.int x) ∧ valuation.value right = some (.int y) ∧
      function x y = some literal := by
  obtain ⟨first, second, x, y, firstArg, secondArg, leftValue, rightValue, value⟩ :=
    words_of_computed evaluates computed
  cases leftArg.symm.trans firstArg
  cases rightArg.symm.trans secondArg
  exact ⟨x, y, leftValue, rightValue, value⟩

section

variable {function : Int64 → Option Const} (evaluates : op.opcode.evaluate = fun args =>
  Opcode.onWord args function)

include evaluates

theorem word_of_computed (computed : op.computed valuation = some literal) :
    ∃ operand x, op.args[0]? = some operand ∧ valuation.value operand = some (.int x) ∧
      function x = some literal := by
  obtain ⟨literals, defined, evaluated⟩ := bind_eq_some_iff.mp computed
  rw [evaluates] at evaluated
  obtain ⟨x, first, value⟩ := Opcode.onWord_eq_some.mp evaluated
  rw [Valuation.values_getElem? defined] at first
  obtain ⟨operand, operandArg, operandValue⟩ := bind_eq_some_iff.mp first
  exact ⟨operand, x, operandArg, operandValue, value⟩

theorem word_of_arg (operandArg : op.args[0]? = some operand)
    (computed : op.computed valuation = some literal) :
    ∃ x, valuation.value operand = some (.int x) ∧ function x = some literal := by
  obtain ⟨first, x, firstArg, operandValue, value⟩ := word_of_computed evaluates computed
  cases operandArg.symm.trans firstArg
  exact ⟨x, operandValue, value⟩

end

theorem computed_of_extends {larger : Valuation} (above : larger.Extends valuation)
    (computed : op.computed valuation = some literal) : op.computed larger = some literal := by
  obtain ⟨literals, defined, evaluated⟩ := bind_eq_some_iff.mp computed
  rw [Operation.computed, above.values defined]
  exact evaluated

end Operation

theorem Valuation.bind_values_pair {valuation : Valuation} {y : Const}
    (leftValue : valuation.value left = some x) (rightValue : valuation.value right = some y)
    (opcode : Opcode) :
    (valuation.values [left, right]).bind opcode.evaluate = opcode.evaluate [x, y] := by
  simp [Valuation.values, leftValue, rightValue]

theorem Valuation.bind_values_single {valuation : Valuation}
    (operandValue : valuation.value operand = some x) (opcode : Opcode) :
    (valuation.values [operand]).bind opcode.evaluate = opcode.evaluate [x] := by
  simp [Valuation.values, operandValue]

end LinearTrace
