import LinearTrace.Facts.Condition
import LinearTrace.Proofs.Facts

/-!
# Learning from conditions

What is learned from a condition is true of every run in which the condition has
the truth value that was learned.
-/

namespace LinearTrace.Facts

open Option LinearTrace.Interval Opcode

variable {heap : Heap} {valuation : Valuation} {facts : Facts}

variable {truth : Bool} {x y : Int64} {condition operand : Value} {relation : Opcode}
  {left right : Interval} {op : Operation} {invariant : Facts → Prop}

/-! ## Relations -/

/-- The relation that narrows: an unsigned one counts as signed where nothing is negative. -/
def narrowingRelation (relation : Opcode) (left right : Interval) : Opcode :=
  match relation.signedForm? with
  | some signed => if left.isNonnegative && right.isNonnegative then signed else relation
  | none => relation

/-- How a relation narrows its two operands. -/
def narrowings? (relation : Opcode) (left right : Interval) :
    Option (Interval.Narrowing × Interval.Narrowing) :=
  match relation with
  | .intLt => some (Interval.makeLt right, Interval.makeGt left)
  | .intLe => some (Interval.makeLe right, Interval.makeGe left)
  | .intGt => some (Interval.makeGt right, Interval.makeLt left)
  | .intGe => some (Interval.makeGe right, Interval.makeLe left)
  | .intEq => some (Interval.intersect right, Interval.intersect left)
  | _ => none

theorem narrowRelation_eq (relation : Opcode) (left right : Value) (facts : Facts) :
    narrowRelation relation left right facts =
      (match narrowings? (narrowingRelation relation (facts.interval left) (facts.interval right))
          (facts.interval left) (facts.interval right) with
      | some (first, second) => do narrow left first; narrow right second
      | none => pure () : FactsM Unit) facts := by
  change (match narrowingRelation relation (facts.interval left) (facts.interval right) with
    | .intLt => _
    | .intLe => _
    | .intGt => _
    | .intGe => _
    | .intEq => _
    | _ => _ : FactsM Unit) facts = _
  cases narrowingRelation relation (facts.interval left) (facts.interval right) <;> rfl

theorem words_of_narrowings? {narrowings : Interval.Narrowing × Interval.Narrowing}
    (narrows : narrowings? (narrowingRelation relation left right) left right = some narrowings)
    {first second literal : Const} (evaluated : relation.evaluate [first, second] = some literal) :
    ∃ x y, first = .int x ∧ second = .int y := by
  have words : ∀ {function : Int64 → Int64 → Option Const},
      onWords [first, second] function = some literal →
        ∃ x y, first = .int x ∧ second = .int y := by
    intro function value
    obtain ⟨x, y, firstWord, secondWord, _⟩ := onWords_eq_some.mp value
    exact ⟨x, y, some.inj firstWord, some.inj secondWord⟩
  cases relation with
  | intLt | intLe | intGt | intGe | intEq | uintLt | uintLe | uintGt | uintGe =>
    exact words evaluated
  | _ => cases narrows

theorem evaluate_narrowingRelation (relation : Opcode) (xMember : x ∈ left) (yMember : y ∈ right) :
    (narrowingRelation relation left right).evaluate [.int x, .int y] =
      relation.evaluate [.int x, .int y] := by
  unfold narrowingRelation
  split
  next signed isSigned =>
    split
    next nonnegative =>
      rw [Bool.and_eq_true] at nonnegative
      exact (evaluate_signedForm isSigned (nonneg_of_isNonnegative nonnegative.1 xMember)
        (nonneg_of_isNonnegative nonnegative.2 yMember)).symm
    · rfl
  · rfl

theorem of_truth {condition : Prop} [Decidable condition]
    (holds : some (Const.truth (decide condition)) = some (Const.truth true)) : condition := by
  by_cases proved : condition
  · exact proved
  · rw [decide_eq_false proved] at holds
    cases holds

theorem narrowings?_keep {first second : Interval.Narrowing}
    (narrows : narrowings? relation left right = some (first, second)) (xMember : x ∈ left)
    (yMember : y ∈ right) (holds : relation.evaluate [.int x, .int y] = some (.truth true)) :
    first.Keeps x ∧ second.Keeps y := by
  cases relation with
  | intLt =>
    cases narrows
    have below := Int64.lt_iff_toInt_lt.mp (of_truth holds)
    exact ⟨keeps_makeLt yMember below, keeps_makeGt xMember below⟩
  | intLe =>
    cases narrows
    have below := Int64.le_iff_toInt_le.mp (of_truth holds)
    exact ⟨keeps_makeLe yMember below, keeps_makeGe xMember below⟩
  | intGt =>
    cases narrows
    have above := Int64.lt_iff_toInt_lt.mp (of_truth holds)
    exact ⟨keeps_makeGt yMember above, keeps_makeLt xMember above⟩
  | intGe =>
    cases narrows
    have above := Int64.le_iff_toInt_le.mp (of_truth holds)
    exact ⟨keeps_makeGe yMember above, keeps_makeLe xMember above⟩
  | intEq =>
    cases narrows
    have same : x = y := by
      by_cases equal : x = y
      · exact equal
      · change some (Const.truth (x == y)) = some (Const.truth true) at holds
        rw [beq_eq_false_iff_ne.mpr equal] at holds
        cases holds
    subst same
    exact ⟨keeps_intersect yMember, keeps_intersect xMember⟩
  | _ => cases narrows

theorem KeptByNarrowing.narrowRelation (keeps : KeptByNarrowing invariant) (relation : Opcode)
    (left right : Value) (kept : invariant facts) :
    Leaves (narrowRelation relation left right) facts invariant := by
  refine .of_eq (narrowRelation_eq relation left right facts) ?_
  split
  · exact (keeps.narrow left _ kept).bind fun _ _ kept => keeps.narrow right _ kept
  · exact kept

theorem Holds.narrowRelation (holds : facts.Holds heap valuation) {left right : Value}
    (related : (valuation.values [left, right]).bind relation.evaluate = some (.truth true)) :
    Ensures False (Facts.narrowRelation relation left right) facts fun _ after =>
      after.Holds heap valuation := by
  refine .of_eq (narrowRelation_eq relation left right facts) ?_
  split
  next first second narrows =>
    obtain ⟨literals, defined, evaluated⟩ := bind_eq_some_iff.mp related
    obtain ⟨leftLiteral, rightLiteral, rfl, leftValue, rightValue⟩ :=
      Valuation.values_pair_eq_some.mp defined
    obtain ⟨x, y, rfl, rfl⟩ := words_of_narrowings? narrows evaluated
    have xMember := holds.mem_interval leftValue
    have yMember := holds.mem_interval rightValue
    rw [← evaluate_narrowingRelation relation xMember yMember] at evaluated
    obtain ⟨xKept, yKept⟩ := narrowings?_keep narrows xMember yMember evaluated
    refine (holds.narrow leftValue xKept).bind fun _ middle middleHolds => ?_
    exact middleHolds.narrow rightValue yKept
  · exact holds

/-! ## Zero tests -/

theorem Holds.narrowZeroTest (holds : facts.Holds heap valuation) {word : Int64}
    (defined : valuation.value operand = some (.int word)) {isNonzero : Bool}
    (test : isNonzero = (word != 0)) :
    Ensures False (Facts.narrowZeroTest operand isNonzero) facts fun _ after =>
      after.Holds heap valuation := by
  subst test
  unfold Facts.narrowZeroTest
  split
  next nonzero => exact holds.narrow defined (keeps_makeNonzero (bne_iff_ne.mp nonzero))
  rename_i zero
  rw [Bool.not_eq_true, bne_eq_false_iff_eq] at zero
  subst zero
  exact holds.narrow defined (keeps_intersect (mem_constant 0))

/-! ## Conditions -/

theorem KeptByNarrowing.narrowCondition (keeps : KeptByNarrowing invariant) (condition : Value)
    (truth : Bool) (kept : invariant facts) :
    Leaves (narrowCondition condition truth) facts invariant := by
  have zeroTest : ∀ operand isNonzero,
      Leaves (narrowZeroTest operand isNonzero) facts invariant := by
    intro operand isNonzero
    unfold narrowZeroTest
    split <;> exact keeps.narrow operand _ kept
  refine .bind_get ?_
  split
  · exact kept
  split
  · exact zeroTest _ _
  · exact zeroTest _ _
  · exact zeroTest _ _
  · exact zeroTest _ _
  · split
    · split
      · exact keeps.narrowRelation _ _ _ kept
      · exact kept
    · exact kept
  · exact kept

theorem narrowCondition_learns (condition : Value) (truth : Bool) (facts : Facts) :
    Leaves (narrowCondition condition truth) facts facts.Learns :=
  (keptByNarrowing_learns facts).narrowCondition condition truth (Learns.refl facts)

theorem Holds.computed_of_producer? (holds : facts.Holds heap valuation)
    (found : facts.producer? condition = some op) :
    op.computed valuation = valuation.value condition := by
  obtain ⟨box, isBox, found⟩ := bind_eq_some_iff.mp found
  obtain ⟨position, producer, found⟩ := bind_eq_some_iff.mp found
  obtain ⟨producing, literal, emitted, computed, boxValue⟩ := holds.produced box position producer
  rw [emitted] at found
  cases found
  rw [computed, ← holds.value_resolve]
  cases resolved : facts.resolve condition with
  | const known =>
    rw [resolved] at isBox
    cases isBox
  | box resolvedBox =>
    rw [resolved] at isBox
    cases isBox
    exact boxValue.symm

theorem zeroTest_of_computed {rest : List Value} {test : Int64 → Bool}
    (evaluates : op.opcode.evaluate = fun args => onWord args fun x => some (.truth (test x)))
    (args : op.args = operand :: rest) (computed : op.computed valuation = some (.truth truth)) :
    ∃ word, valuation.value operand = some (.int word) ∧ truth = test word := by
  obtain ⟨word, defined, value⟩ :=
    Operation.word_of_arg evaluates (by rw [args]; rfl) computed
  exact ⟨word, defined, Const.truth_inj (some.inj value).symm⟩

/-- Learning that a condition has the truth value which it has. -/
theorem Holds.narrowCondition (holds : facts.Holds heap valuation)
    (defined : valuation.value condition = some (.truth truth)) :
    Ensures False (Facts.narrowCondition condition truth) facts fun _ after =>
      after.Holds heap valuation := by
  have zeroTest {op : Operation} {operand : Value} {rest : List Value} {test : Int64 → Bool}
      (evaluates : op.opcode.evaluate = fun args => onWord args fun x => some (.truth (test x)))
      (args : op.args = operand :: rest) (computed : op.computed valuation = some (.truth truth))
      {nonzero : Bool} (isTest : ∀ word, truth = test word → nonzero = (word != 0)) :
      Ensures False (Facts.narrowZeroTest operand nonzero) facts fun _ after =>
        after.Holds heap valuation := by
    obtain ⟨word, operandValue, verdict⟩ := zeroTest_of_computed evaluates args computed
    exact holds.narrowZeroTest operandValue (isTest word verdict)
  refine .bind_get ?_
  split
  · exact holds
  rename_i op found
  have computed := holds.computed_of_producer? found
  rw [defined] at computed
  split
  next opcode args => exact zeroTest (by rw [opcode]; rfl) args computed fun _ => id
  next opcode args => exact zeroTest (by rw [opcode]; rfl) args computed fun _ => id
  next opcode args => exact zeroTest (by rw [opcode]; rfl) args computed fun _ => (· ▸ rfl)
  next opcode args => exact zeroTest (by rw [opcode]; rfl) args computed fun _ => (· ▸ rfl)
  next left right args _ _ =>
    unfold Operation.computed at computed
    rw [args] at computed
    split
    · split
      next relation chosen =>
        refine holds.narrowRelation ?_
        cases truth with
        | true =>
          cases chosen
          exact computed
        | false =>
          -- A comparison that came out false makes its inverse true of the same operands.
          obtain ⟨literals, values, evaluated⟩ := bind_eq_some_iff.mp computed
          obtain ⟨verdict, isFalse, inverted⟩ := Opcode.evaluate_inverse chosen evaluated
          rw [values, bind_some, inverted, ← Const.truth_inj isFalse]
          rfl
      · exact holds
    · exact holds
  · exact holds

end LinearTrace.Facts
