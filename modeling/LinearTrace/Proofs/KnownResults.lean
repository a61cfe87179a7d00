import LinearTrace.Proofs.Evaluate
import LinearTrace.Proofs.Fault

/-!
# Known results are true

A table of known results holds of a valuation when every entry is the value of
its operation there.  The identities that an operation implies are true of every
valuation that gives the operation's result the value it computes.
-/

namespace LinearTrace.KnownResults

open List Option LinearTrace.Const Operation

variable {known : KnownResults} {valuation : Valuation} {op : Operation} {box : Box}
  {literal : Const} {excuse : Prop}

variable {result left right : Value} {x : Const} {y : Int64} {opcode : Opcode}
  {entry : Opcode × List Value × Value}

/-- The value named as an operation's result is the value of the operation. -/
def TrueEntry (valuation : Valuation) (opcode : Opcode) (args : List Value) (result : Value) :
    Prop :=
  ∃ literal, (valuation.values args).bind opcode.evaluate = some literal ∧
    valuation.value result = some literal

def Holds (known : KnownResults) (valuation : Valuation) : Prop :=
  ∀ opcode args result, known.lookup opcode args = some result →
    TrueEntry valuation opcode args result

theorem Holds.record (holds : known.Holds valuation) {args : List Value}
    (isTrue : TrueEntry valuation opcode args result) :
    (known.record opcode args result).Holds valuation := by
  intro otherOpcode otherArgs other found
  rw [lookup, KnownResults.record, Std.HashMap.getElem?_insertIfNew] at found
  split at found
  next isNew =>
    cases found
    rw [beq_iff_eq] at isNew
    cases isNew.1
    exact isTrue
  · exact holds otherOpcode otherArgs other found

theorem Holds.recordAll (holds : known.Holds valuation)
    {entries : List (Opcode × List Value × Value)}
    (each : ∀ entry ∈ entries, TrueEntry valuation entry.1 entry.2.1 entry.2.2) :
    (known.recordAll entries).Holds valuation := by
  induction entries generalizing known with
  | nil => exact holds
  | cons entry rest ih =>
    exact ih (holds.record (each entry mem_cons_self)) fun later member =>
      each later (mem_cons_of_mem entry member)

theorem Holds.extend (holds : known.Holds valuation) {larger : Valuation}
    (above : larger.Extends valuation) : known.Holds larger := by
  intro opcode args result found
  obtain ⟨literal, computed, resultValue⟩ := holds opcode args result found
  obtain ⟨literals, defined, evaluated⟩ := bind_eq_some_iff.mp computed
  refine ⟨literal, ?_, above.value resultValue⟩
  rw [above.values defined]
  exact evaluated

/-! ## Reverse forms -/

theorem trueEntry_pair {y : Const} (leftValue : valuation.value left = some x)
    (rightValue : valuation.value right = some y)
    (resultValue : valuation.value result = some literal)
    (evaluated : opcode.evaluate [x, y] = some literal) :
    TrueEntry valuation opcode [left, right] result :=
  ⟨literal, (Valuation.bind_values_pair leftValue rightValue opcode).trans evaluated, resultValue⟩

theorem trueEntry_single {operand : Value} (operandValue : valuation.value operand = some x)
    (resultValue : valuation.value result = some literal)
    (evaluated : opcode.evaluate [x] = some literal) :
    TrueEntry valuation opcode [operand] result :=
  ⟨literal, (Valuation.bind_values_single operandValue opcode).trans evaluated, resultValue⟩

theorem value_of_negated? {value negation : Value} {word : Int64}
    (negated : negated? value = some negation) (valueIs : valuation.value value = some (.int word))
    : valuation.value negation = some (.int (-word)) := by
  obtain ⟨known, isConst, ofConst⟩ := bind_eq_some_iff.mp negated
  obtain ⟨constant, isInt, ofInt⟩ := bind_eq_some_iff.mp ofConst
  obtain ⟨opposite, fits, isNegation⟩ := bind_eq_some_iff.mp ofInt
  rw [Value.eq_const_of_const? isConst] at valueIs
  cases valueIs
  cases isInt
  cases isNegation
  rw [Word.eq_neg_of_neg? fits]
  rfl

section

variable {x : Int64} (leftValue : valuation.value left = some (.int x)) (rightValue :
  valuation.value right = some (.int y))

include leftValue rightValue

theorem trueEntry_of_sum (resultValue : valuation.value result = some (.int (x + y)))
    (member : entry ∈ [(.intAdd, [right, left], result), (.intSub, [result, right], left),
          (.intSub, [result, left], right)]
        ++ (negated? right).toList.map (fun negation => (.intSub, [left, negation], result))
        ++ (negated? left).toList.map (fun negation => (.intSub, [right, negation], result))) :
    TrueEntry valuation entry.1 entry.2.1 entry.2.2 := by
  have swapped : y + x = x + y := Int64.add_comm y x
  have takeLeft : x + y - x = y := by rw [Int64.add_comm, Int64.add_sub_cancel]
  simp only [mem_append, mem_cons, not_mem_nil, or_false, List.mem_map,
    mem_toList] at member
  rcases member with ((rfl | rfl | rfl) | ⟨negation, negated, rfl⟩) | ⟨negation, negated, rfl⟩
  · exact trueEntry_pair rightValue leftValue resultValue (congrArg (some ∘ int) swapped)
  · exact trueEntry_pair resultValue rightValue leftValue
      (congrArg (some ∘ int) (Int64.add_sub_cancel x y))
  · exact trueEntry_pair resultValue leftValue rightValue (congrArg (some ∘ int) takeLeft)
  · exact trueEntry_pair leftValue (value_of_negated? negated rightValue) resultValue
      (congrArg (some ∘ int) Int64.sub_neg)
  · exact trueEntry_pair rightValue (value_of_negated? negated leftValue) resultValue
      (congrArg (some ∘ int) (Int64.sub_neg.trans swapped))

theorem trueEntry_of_difference (resultValue : valuation.value result = some (.int (x - y)))
    (member : entry ∈ [(.intAdd, [result, right], left), (.intAdd, [right, result], left),
          (.intSub, [left, result], right)]
        ++ (negated? right).toList.flatMap fun negation =>
          [(.intAdd, [left, negation], result), (.intAdd, [negation, left], result)]) :
    TrueEntry valuation entry.1 entry.2.1 entry.2.2 := by
  have restored : x - y + y = x := Int64.sub_add_cancel x y
  have plusNegation : x + -y = x - y := (Int64.sub_eq_add_neg x y).symm
  have takeResult : x - (x - y) = y := by
    rw [Int64.sub_eq_add_neg x (x - y), Int64.neg_sub, Int64.add_comm, Int64.sub_add_cancel]
  simp only [mem_append, mem_cons, not_mem_nil, or_false, mem_flatMap,
    mem_toList] at member
  rcases member with (rfl | rfl | rfl) | ⟨negation, negated, rfl | rfl⟩
  · exact trueEntry_pair resultValue rightValue leftValue (congrArg (some ∘ int) restored)
  · exact trueEntry_pair rightValue resultValue leftValue
      (congrArg (some ∘ int) ((Int64.add_comm y _).trans restored))
  · exact trueEntry_pair leftValue resultValue rightValue (congrArg (some ∘ int) takeResult)
  · exact trueEntry_pair leftValue (value_of_negated? negated rightValue) resultValue
      (congrArg (some ∘ int) plusNegation)
  · exact trueEntry_pair (value_of_negated? negated rightValue) leftValue resultValue
      (congrArg (some ∘ int) ((Int64.add_comm _ x).trans plusNegation))

end

/-- The operations on floats that have reverse forms. -/
def floatForms : List Opcode := [.floatAdd, .floatMul, .floatSub, .floatNeg]

/-- Every entry is true of a valuation that gives the result the value which the operation
computes. -/
def Implied (op : Operation) (result : Value) (entries : List (Opcode × List Value × Value)) :
    Prop :=
  ∀ valuation literal, op.computed valuation = some literal →
    valuation.value result = some literal →
      ∀ entry ∈ entries, TrueEntry valuation entry.1 entry.2.1 entry.2.2

theorem implied_mirrored {function : Int64 → Int64 → Int64} (isOpcode : op.opcode = opcode)
    (evaluates : opcode.evaluate =
      fun args => Opcode.onWords args fun x y => some (.int (function x y)))
    (commutes : ∀ x y, function y x = function x y) :
    EnsuresValue excuse (do return [(opcode, [← op.arg 1, ← op.arg 0], result)])
      (Implied op result) := by
  refine .bind_arg fun right rightArg => ?_
  refine .bind_arg fun left leftArg => ?_
  intro valuation literal computed resultValue entry member
  obtain ⟨x, y, leftValue, rightValue, value⟩ :=
    words_of_args (by rw [isOpcode, evaluates]) leftArg rightArg computed
  cases value
  cases mem_singleton.mp member
  refine trueEntry_pair rightValue leftValue resultValue ?_
  rw [evaluates]
  exact congrArg (some ∘ int) (commutes x y)

theorem implied_involution {function : Int64 → Int64} (isOpcode : op.opcode = opcode)
    (evaluates : opcode.evaluate = fun args => Opcode.onWord args fun x => some (.int (function x)))
    (undoes : ∀ x, function (function x) = x) :
    EnsuresValue excuse (do return [(opcode, [result], ← op.arg 0)]) (Implied op result) := by
  refine .bind_arg fun operand operandArg => ?_
  intro valuation literal computed resultValue entry member
  obtain ⟨x, operandValue, value⟩ :=
    word_of_arg (by rw [isOpcode, evaluates]) operandArg computed
  cases value
  cases mem_singleton.mp member
  refine trueEntry_single resultValue operandValue ?_
  rw [evaluates]
  exact congrArg (some ∘ int) (undoes x)

theorem implied_reverseForms (known : KnownResults)
    (noFloat : op.opcode ∉ floatForms) (result : Value) :
    EnsuresValue excuse (known.reverseForms op result) (Implied op result) := by
  unfold reverseForms
  cases opcode : op.opcode with
  | intAdd | intSub =>
    refine .bind_arg fun left leftArg => ?_
    refine .bind_arg fun right rightArg => ?_
    intro valuation literal computed resultValue entry member
    obtain ⟨x, y, leftValue, rightValue, value⟩ :=
      words_of_args (by rw [opcode]; rfl) leftArg rightArg computed
    cases value
    first
      | exact trueEntry_of_sum leftValue rightValue resultValue member
      | exact trueEntry_of_difference leftValue rightValue resultValue member
  | intMul => exact implied_mirrored opcode rfl fun x y => Int64.mul_comm y x
  | intAnd => exact implied_mirrored opcode rfl fun x y => Int64.and_comm y x
  | intOr => exact implied_mirrored opcode rfl fun x y => Int64.or_comm y x
  | intXor => exact implied_mirrored opcode rfl fun x y => Int64.xor_comm y x
  | intNeg => exact implied_involution opcode rfl fun _ => Int64.neg_neg
  | intInvert => exact implied_involution opcode rfl fun _ => Int64.not_not
  | castPtrToInt =>
    refine .bind_arg fun operand operandArg => ?_
    intro valuation literal computed resultValue entry member
    obtain ⟨literals, defined, evaluated⟩ := bind_eq_some_iff.mp computed
    rw [opcode] at evaluated
    obtain ⟨reference, first, evaluated⟩ := bind_eq_some_iff.mp evaluated
    rw [Valuation.values_getElem? defined, operandArg] at first
    cases mem_singleton.mp member
    cases reference with
    | ref address =>
      cases evaluated
      exact trueEntry_single resultValue first (congrArg (some ∘ ref) address.toUInt64_toInt64)
    | int word => cases evaluated
    | float number => cases evaluated
  | castIntToPtr =>
    refine .bind_arg fun operand operandArg => ?_
    intro valuation literal computed resultValue entry member
    obtain ⟨x, operandValue, value⟩ :=
      word_of_arg (by rw [opcode]; rfl) operandArg computed
    cases value
    cases mem_singleton.mp member
    exact trueEntry_single resultValue operandValue (congrArg (some ∘ int) x.toInt64_toUInt64)
  | floatAdd | floatMul | floatSub | floatNeg => simp [opcode, floatForms] at noFloat
  | _ => exact fun _ _ _ _ entry member => absurd member not_mem_nil

theorem noFloat_of_isIntegral (integral : opcode.isIntegral) : opcode ∉ floatForms := by
  revert integral
  cases opcode <;> decide

theorem ensuresValue_recordReverse (known : KnownResults)
    (noFloat : op.opcode ∉ floatForms) (result : op.result = some box) :
    EnsuresValue excuse (known.recordReverse op) fun recorded =>
      ∀ valuation literal, known.Holds valuation → op.computed valuation = some literal →
        valuation box = some literal → recorded.Holds valuation := by
  unfold recordReverse
  rw [result]
  refine (implied_reverseForms known noFloat (.box box)).bind fun entries implied => ?_
  intro valuation literal holds computed boxValue
  exact holds.recordAll (implied valuation literal computed boxValue)

end LinearTrace.KnownResults
