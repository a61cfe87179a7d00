import Mathlib.Tactic.Lift
import Mathlib.Tactic.Ring
import LinearTrace.IndexVar
import LinearTrace.Proofs.Evaluate

/-!
# The values of affine indices

An entry of an index table stands for the word `base * multiplier / divisor + offset`.
Sums and differences keep that form exactly, since words wrap.  A product commutes with the
division where nothing was divided or the remainder is small, and a quotient distributes over
the offset where adding the offset neither overflows nor changes the sign.  On a valuation
that is regular in this sense every entry of the table is the word in its box.
-/

namespace LinearTrace

open List Option IndexVar Int Word IndexTable

variable {dividend : Int} {box : Box} {wordFirst : Bool} {multiple : Int64} {literal : Const}

/-! ## Truncating division -/

theorem tdiv_tdiv_of_nonneg (dividend : Int) {first second : Int} (firstNonneg : 0 ≤ first)
    (secondNonneg : 0 ≤ second) :
    (dividend.tdiv first).tdiv second = dividend.tdiv (first * second) := by
  lift first to Nat using firstNonneg
  lift second to Nat using secondNonneg
  have magnitude (number : Nat) : ((number : Int).tdiv first).tdiv second =
      (number : Int).tdiv (first * second) := by
    rw [← ofNat_tdiv, ← ofNat_tdiv, ← natCast_mul, ← ofNat_tdiv,
      Nat.div_div_eq_div_mul]
  obtain ⟨number, rfl | rfl⟩ := dividend.eq_nat_or_neg
  · exact magnitude number
  · rw [Int.neg_tdiv, Int.neg_tdiv, Int.neg_tdiv, magnitude]

theorem tdiv_nonpos {divisor : Int} (nonpos : dividend ≤ 0) (nonneg : 0 ≤ divisor) :
    dividend.tdiv divisor ≤ 0 := by
  have opposite := Int.tdiv_nonneg (Int.neg_nonneg.mpr nonpos) nonneg
  rw [Int.neg_tdiv] at opposite
  exact Int.neg_nonneg.mp opposite

theorem mul_tdiv_of_small {divisor factor : Int} (nonneg : 0 ≤ divisor)
    (small : (dividend.tmod divisor).natAbs * factor.natAbs < divisor.natAbs) :
    (dividend * factor).tdiv divisor = dividend.tdiv divisor * factor := by
  lift divisor to Nat using nonneg
  rw [natAbs_tmod, natAbs_natCast] at small
  have split : dividend.natAbs * factor.natAbs = dividend.natAbs % divisor * factor.natAbs +
      divisor * (dividend.natAbs / divisor * factor.natAbs) := by
    nth_rewrite 1 [← Nat.mod_add_div dividend.natAbs divisor]
    ring
  have magnitudes : dividend.natAbs * factor.natAbs / divisor =
      dividend.natAbs / divisor * factor.natAbs := by
    rw [split, Nat.add_mul_div_left _ _ (Nat.zero_lt_of_lt small), Nat.div_eq_of_lt small,
      Nat.zero_add]
  have quotient : ((dividend.natAbs : Int) * factor.natAbs).tdiv divisor =
      (dividend.natAbs : Int).tdiv divisor * factor.natAbs := by
    rw [← natCast_mul, ← ofNat_tdiv, magnitudes, natCast_mul, ofNat_tdiv]
  rcases natAbs_eq dividend with dividendEq | dividendEq <;>
    rcases natAbs_eq factor with factorEq | factorEq <;>
    rw [dividendEq, factorEq] <;>
    simp only [Int.neg_mul, Int.mul_neg, Int.neg_tdiv, quotient, Int.neg_neg]

/-- A division distributes over a sum with a multiple of the divisor exactly when the other
summand is a multiple as well or keeps its sign. -/
theorem add_tdiv_iff {divisor multiple : Int} (positive : 0 < divisor)
    (divides : divisor ∣ multiple) :
    (dividend + multiple).tdiv divisor = dividend.tdiv divisor + multiple.tdiv divisor ↔
      divisor ∣ dividend ∨ (0 ≤ dividend + multiple ↔ 0 ≤ dividend) := by
  obtain ⟨count, rfl⟩ := divides
  have same : divisor ∣ dividend + divisor * count ↔ divisor ∣ dividend :=
    Int.dvd_add_left (Int.dvd_mul_right divisor count)
  rw [Int.mul_tdiv_cancel_left _ positive.ne', Int.tdiv_eq_ediv, Int.tdiv_eq_ediv,
    add_mul_ediv_left _ _ positive.ne', sign_eq_one_of_pos positive]
  simp only [same]
  by_cases exact : divisor ∣ dividend
  · simp only [exact, or_true, if_true, true_or, iff_true]
    omega
  · simp only [exact, or_false, false_or]
    split <;> split <;> omega

/-! ## Exact results of word operations -/

namespace Word

section Checked

variable {left right result : Int64}

theorem eq_add_of_add? (fits : add? left right = some result) : result = left + right := by
  rw [← Int64.ofInt_toInt result, toInt_of_add? fits, Int64.ofInt_add, Int64.ofInt_toInt,
    Int64.ofInt_toInt]

theorem eq_sub_of_sub? (fits : sub? left right = some result) : result = left - right := by
  rw [← Int64.ofInt_toInt result, toInt_of_sub? fits, Int64.ofInt_sub, Int64.ofInt_toInt,
    Int64.ofInt_toInt]

theorem eq_mul_of_mul? (fits : mul? left right = some result) : result = left * right := by
  rw [← Int64.ofInt_toInt result, toInt_of_mul? fits, Int64.ofInt_mul, Int64.ofInt_toInt,
    Int64.ofInt_toInt]

end Checked

variable {divisor word : Int64}

theorem toInt_div_of_pos (dividend : Int64) (positive : 0 < divisor.toInt) :
    (dividend / divisor).toInt = dividend.toInt.tdiv divisor.toInt := by
  apply Int64.toInt_div_of_ne_right
  rintro rfl
  cases positive

theorem div_div_of_pos (dividend : Int64) {product : Int64} (divisorPositive : 0 < divisor.toInt)
    (wordPositive : 0 < word.toInt) (fits : mul? divisor word = some product) :
    dividend / product = dividend / divisor / word := by
  have value := toInt_of_mul? fits
  have positive : 0 < product.toInt := value ▸ mul_pos divisorPositive wordPositive
  apply Int64.toInt.inj
  rw [toInt_div_of_pos _ wordPositive, toInt_div_of_pos _ divisorPositive,
    toInt_div_of_pos _ positive, value,
    tdiv_tdiv_of_nonneg _ (le_of_lt divisorPositive) (le_of_lt wordPositive)]

def ProductFits (left right : Int64) : Prop :=
  -2 ^ 63 ≤ left.toInt * right.toInt ∧ left.toInt * right.toInt < 2 ^ 63

instance (left right : Int64) : Decidable (ProductFits left right) :=
  inferInstanceAs (Decidable (_ ∧ _))

def SumFits (left right : Int64) : Prop :=
  -2 ^ 63 ≤ left.toInt + right.toInt ∧ left.toInt + right.toInt < 2 ^ 63

instance (left right : Int64) : Decidable (SumFits left right) :=
  inferInstanceAs (Decidable (_ ∧ _))

theorem mul_div_of_small {dividend : Int64} (positive : 0 < divisor.toInt)
    (fits : ProductFits dividend word)
    (small : (dividend.toInt.tmod divisor.toInt).natAbs * word.toInt.natAbs < divisor.toInt.natAbs)
    : dividend * word / divisor = dividend / divisor * word := by
  have product : (dividend * word).toInt = dividend.toInt * word.toInt := by
    rw [Int64.toInt_mul, bmod_of_range fits.1 fits.2]
  have quotient : (dividend * word / divisor).toInt = (dividend / divisor).toInt * word.toInt := by
    rw [toInt_div_of_pos _ positive, toInt_div_of_pos _ positive, product,
      mul_tdiv_of_small (le_of_lt positive) small]
  have range := toInt_range (dividend * word / divisor)
  rw [quotient] at range
  apply Int64.toInt.inj
  rw [quotient, Int64.toInt_mul, bmod_of_range range.1 range.2]

theorem div_range (dividend : Int64) (large : 2 ≤ word.toInt) :
    -2 ^ 62 ≤ (dividend / word).toInt ∧ (dividend / word).toInt < 2 ^ 62 := by
  have range := toInt_range dividend
  rw [toInt_div_of_pos _ (by omega)]
  have shrinks : (dividend.toInt.tdiv word.toInt).natAbs ≤ dividend.toInt.natAbs / 2 := by
    rw [natAbs_tdiv]
    exact Nat.div_le_div_left (by omega) (by decide)
  by_cases nonneg : 0 ≤ dividend.toInt
  · omega
  · have nonpos := tdiv_nonpos (by omega : dividend.toInt ≤ 0) (by omega : 0 ≤ word.toInt)
    omega

/-- A sum that overflows changes its sign, so its quotient is not that of the summands. -/
theorem add_div_ne_of_overflow {dividend : Int64} (large : 2 ≤ word.toInt)
    (divides : word.toInt ∣ multiple.toInt) (overflows : ¬ SumFits dividend multiple) :
    (dividend + multiple) / word ≠ dividend / word + multiple / word := by
  intro distributes
  have positive : 0 < word.toInt := by omega
  have quotients := congrArg Int64.toInt distributes
  have sumRange := toInt_range (dividend + multiple)
  have dividendRange := toInt_range dividend
  have multipleRange := toInt_range multiple
  have dividendHalf := div_range dividend large
  have multipleHalf := div_range multiple large
  rw [Int64.toInt_add, bmod_of_range (by omega) (by omega), toInt_div_of_pos _ positive,
    toInt_div_of_pos _ positive, toInt_div_of_pos _ positive] at quotients
  have wraps := Int64.toInt_add dividend multiple
  rw [bmod_def] at wraps
  unfold SumFits at overflows
  by_cases above : 2 ^ 63 ≤ dividend.toInt + multiple.toInt
  · have sumQuotient := tdiv_nonpos (by omega : (dividend + multiple).toInt ≤ 0) positive.le
    have dividendQuotient := Int.tdiv_nonneg (by omega : 0 ≤ dividend.toInt) positive.le
    have multipleQuotient :=
      Int.tdiv_pos_of_pos_of_dvd (by omega : 0 < multiple.toInt) positive.le divides
    omega
  · have sumQuotient := Int.tdiv_nonneg (by omega : 0 ≤ (dividend + multiple).toInt) positive.le
    have dividendQuotient := tdiv_nonpos (by omega : dividend.toInt ≤ 0) positive.le
    have multipleQuotient := Int.tdiv_pos_of_pos_of_dvd (by omega : 0 < -multiple.toInt) positive.le
      (Int.dvd_neg.mpr divides)
    rw [Int.neg_tdiv] at multipleQuotient
    omega

/-- Division of a sum whose second summand is a multiple of the divisor: it distributes exactly
when nothing is divided, or the sum fits and its first summand is a multiple or keeps its
sign. -/
theorem add_div_iff {dividend : Int64} (positive : 0 < word.toInt)
    (divides : word.toInt ∣ multiple.toInt) :
    (dividend + multiple) / word = dividend / word + multiple / word ↔
      word = 1 ∨ SumFits dividend multiple ∧ (word.toInt ∣ dividend.toInt ∨
        (0 ≤ dividend.toInt + multiple.toInt ↔ 0 ≤ dividend.toInt)) := by
  by_cases trivial : word = 1
  · subst trivial
    simp
  have large : 2 ≤ word.toInt := by
    have notOne : word.toInt ≠ 1 := fun isOne => trivial (Int64.toInt.inj isOne)
    omega
  by_cases fits : SumFits dividend multiple
  · have dividendRange := div_range dividend large
    have multipleRange := div_range multiple large
    rw [← Int64.toInt_inj, Int64.toInt_add, bmod_of_range (by omega) (by omega),
      toInt_div_of_pos _ positive, toInt_div_of_pos _ positive, toInt_div_of_pos _ positive,
      Int64.toInt_add, bmod_of_range fits.1 fits.2, add_tdiv_iff positive divides]
    simp only [trivial, fits, false_or, true_and]
  · simp only [trivial, fits, false_or, false_and, iff_false]
    exact add_div_ne_of_overflow large divides fits

end Word

/-! ## The word that an index stands for -/

/-- The word in a box; zero where there is none. -/
def Valuation.wordIn (valuation : Valuation) (box : Box) : Int64 :=
  ((valuation box).bind Const.int?).getD 0

namespace IndexVar

variable {valuation : Valuation} {index : IndexVar} {word : Int64}

/-- The scaled base, which wraps. -/
def scaled (valuation : Valuation) (index : IndexVar) : Int64 :=
  match index.base with
  | some box => valuation.wordIn box * index.multiplier
  | none => 0

def quotient (valuation : Valuation) (index : IndexVar) : Int64 :=
  index.scaled valuation / index.divisor

/-- The word that the index stands for. -/
def value (valuation : Valuation) (index : IndexVar) : Int64 :=
  index.quotient valuation + index.offset

/-- A product with the word commutes with the division: nothing is divided, or the product fits
and the remainder is too small to count. -/
def ScalesBy (valuation : Valuation) (index : IndexVar) (word : Int64) : Prop :=
  index.divisor = 1 ∨ Word.ProductFits (index.scaled valuation) word ∧
    ((index.scaled valuation).toInt.tmod index.divisor.toInt).natAbs * word.toInt.natAbs <
      index.divisor.toInt.natAbs

instance : Decidable (index.ScalesBy valuation word) :=
  inferInstanceAs (Decidable (_ ∨ _ ∧ _))

/-- A quotient by the word distributes over the offset: nothing is divided, or adding the offset
does not overflow and keeps the sign of what is not a multiple of the word. -/
def DividesBy (valuation : Valuation) (index : IndexVar) (word : Int64) : Prop :=
  word = 1 ∨ Word.SumFits (index.quotient valuation) index.offset ∧
    (word.toInt ∣ (index.quotient valuation).toInt ∨
      (0 ≤ (index.quotient valuation).toInt + index.offset.toInt ↔
        0 ≤ (index.quotient valuation).toInt))

instance : Decidable (index.DividesBy valuation word) :=
  inferInstanceAs (Decidable (_ ∨ _ ∧ (_ ∨ (_ ↔ _))))

theorem value_add? {sum : IndexVar} (fits : index.add? word = some sum) :
    sum.value valuation = index.value valuation + word := by
  obtain ⟨offset, offsetFits, isSum⟩ := bind_eq_some_iff.mp fits
  cases isSum
  change index.quotient valuation + offset = index.quotient valuation + index.offset + word
  rw [eq_add_of_add? offsetFits, Int64.add_assoc]

theorem value_sub? {difference : IndexVar} (fits : index.sub? word = some difference) :
    difference.value valuation = index.value valuation - word := by
  obtain ⟨offset, offsetFits, isDifference⟩ := bind_eq_some_iff.mp fits
  cases isDifference
  change index.quotient valuation + offset = index.quotient valuation + index.offset - word
  rw [eq_sub_of_sub? offsetFits]
  grind

theorem scaled_mul (divisor offset : Int64) :
    scaled valuation ⟨index.base, index.multiplier * word, divisor, offset⟩ =
      index.scaled valuation * word := by
  unfold scaled
  cases index.base with
  | none => simp
  | some box => exact (Int64.mul_assoc _ _ _).symm

theorem value_mul? {product : IndexVar} (fits : index.mul? word = some product)
    (positive : 0 < index.divisor.toInt) (scales : index.ScalesBy valuation word) :
    product.value valuation = index.value valuation * word := by
  obtain ⟨multiplier, multiplierFits, fits⟩ := bind_eq_some_iff.mp fits
  obtain ⟨offset, offsetFits, isProduct⟩ := bind_eq_some_iff.mp fits
  cases isProduct
  cases eq_mul_of_mul? multiplierFits
  cases eq_mul_of_mul? offsetFits
  have commutes : index.scaled valuation * word / index.divisor =
      index.scaled valuation / index.divisor * word := by
    obtain isOne | ⟨productFits, small⟩ := scales
    · rw [isOne, Int64.div_one, Int64.div_one]
    · exact mul_div_of_small positive productFits small
  unfold value quotient
  rw [scaled_mul, commutes]
  grind

/-- A quotient is tracked for a positive word that divides the offset. -/
theorem pos_and_dvd_of_div? {result : IndexVar} (fits : index.div? word = some result) :
    0 < word.toInt ∧ word.toInt ∣ index.offset.toInt ∧
      (Word.mul? index.divisor word).bind (fun divisor =>
        some { index with divisor := divisor, offset := index.offset / word }) = some result := by
  unfold div? at fits
  split at fits
  · cases fits
  rename_i tracked
  simp only [not_or, Int64.not_le, Int64.lt_iff_toInt_lt, ne_eq, not_not] at tracked
  refine ⟨tracked.1, dvd_of_tmod_eq_zero ?_, fits⟩
  rw [← Int64.toInt_mod, tracked.2]
  rfl

theorem value_div?_iff {result : IndexVar} (fits : index.div? word = some result)
    (positive : 0 < index.divisor.toInt) :
    result.value valuation = index.value valuation / word ↔ index.DividesBy valuation word := by
  obtain ⟨wordPositive, offsetDivides, fits⟩ := pos_and_dvd_of_div? fits
  obtain ⟨divisor, divisorFits, isResult⟩ := bind_eq_some_iff.mp fits
  cases isResult
  have quotients : index.scaled valuation / divisor = index.quotient valuation / word :=
    Word.div_div_of_pos _ positive wordPositive divisorFits
  change index.scaled valuation / divisor + index.offset / word =
    (index.quotient valuation + index.offset) / word ↔ _
  rw [quotients, eq_comm]
  exact add_div_iff wordPositive offsetDivides

end IndexVar

/-! ## Tables -/

/-- The boxes that hold sums, differences, products or quotients hold the values of these. -/
def Valuation.Satisfies (valuation : Valuation) (ops : List Operation) : Prop :=
  ∀ op ∈ ops, op.opcode ∈ [Opcode.intAdd, .intSub, .intMul, .intFloorDiv] →
    ∀ result ∈ op.result, ∀ literal ∈ valuation result, op.computed valuation = some literal

instance (valuation : Valuation) (ops : List Operation) : Decidable (valuation.Satisfies ops) :=
  inferInstanceAs (Decidable (∀ op ∈ ops, _ → ∀ result ∈ op.result, ∀ literal ∈ valuation result, _))

/-- The boxes that a table may track hold the values of their operations. -/
def Valuation.Tracks (valuation : Valuation) (ops : List Operation) : Prop :=
  ∀ op ∈ ops, ∀ (table : IndexTable) (index : IndexVar), table.derive? op = some index →
    ∀ result ∈ op.result, ∀ literal ∈ valuation result, op.computed valuation = some literal

namespace IndexTable

variable {table : IndexTable} {valuation : Valuation} {op : Operation} {ops : List Operation}

variable {word : Int64} {index : IndexVar}

variable {property : Box → IndexVar → Prop}

def Forall (property : Box → IndexVar → Prop) (table : IndexTable) : Prop :=
  ∀ (box : Box) (index : IndexVar), table[box]? = some index → property box index

abbrev IsPositive (table : IndexTable) : Prop :=
  table.Forall fun _ index => 0 < index.divisor.toInt

/-- Each entry stands for the word in its box. -/
structure IsExact (table : IndexTable) (valuation : Valuation) : Prop where
  positive : table.IsPositive
  value : ∀ (box : Box) (index : IndexVar), table[box]? = some index →
    ∀ literal ∈ valuation box, literal = .int (index.value valuation)

/-- The box and the word among the operands. -/
def operands? (op : Operation) : Option (Box × Int64 × Bool) :=
  match op.args with
  | [left, right] => boxAndWord? left right
  | _ => none

theorem args_of_operands? (operands : operands? op = some (box, word, wordFirst)) :
    op.args = [.box box, .const (.int word)] ∧ wordFirst = false ∨
      op.args = [.const (.int word), .box box] ∧ wordFirst := by
  unfold operands? at operands
  split at operands
  next left right args =>
    unfold boxAndWord? at operands
    split at operands
    next literal =>
      obtain ⟨known, isWord, same⟩ := map_eq_some_iff.mp operands
      cases same
      cases literal <;> cases isWord
      exact .inl ⟨args, rfl⟩
    next literal _ =>
      obtain ⟨known, isWord, same⟩ := map_eq_some_iff.mp operands
      cases same
      cases literal <;> cases isWord
      exact .inr ⟨args, rfl⟩
    · cases operands
  · cases operands

/-- A product or quotient that the table tracks keeps the form of its operand. -/
def IsRegularStep (valuation : Valuation) (table : IndexTable) (op : Operation) : Prop :=
  ∀ operands ∈ operands? op, (table.derive? op).isSome →
    (op.opcode = .intMul → (IndexVar.lookup table operands.1).ScalesBy valuation operands.2.1) ∧
      (op.opcode = .intFloorDiv →
        (IndexVar.lookup table operands.1).DividesBy valuation operands.2.1)

instance : Decidable (IsRegularStep valuation table op) :=
  inferInstanceAs (Decidable (∀ operands ∈ operands? op, _ → _ ∧ _))

theorem isRegularStep_of_ne (noProduct : op.opcode ≠ .intMul)
    (noQuotient : op.opcode ≠ .intFloorDiv) : IsRegularStep valuation table op :=
  fun _ _ _ => ⟨fun isProduct => absurd isProduct noProduct,
    fun isQuotient => absurd isQuotient noQuotient⟩

/-- Every product and quotient that is tracked keeps the form of its operand. -/
def IsRegularFrom (valuation : Valuation) : IndexTable → List Operation → Prop
  | _, [] => True
  | table, op :: rest =>
    IsRegularStep valuation table op ∧ IsRegularFrom valuation (table.extend op) rest

theorem forall_empty (property : Box → IndexVar → Prop) : Forall property ∅ :=
  fun box index found => by simp at found

/-- What holds of all entries and of boxes by themselves holds of what is looked up. -/
theorem Forall.lookup (known : table.Forall property) (plain : ∀ box, property box (.ofBox box))
    (box : Box) : property box (IndexVar.lookup table box) := by
  unfold IndexVar.lookup
  rw [Std.HashMap.getD_eq_getD_getElem?]
  cases entry : table[box]? with
  | none => exact plain box
  | some index => exact known box index entry

theorem IsPositive.lookup (positive : table.IsPositive) (box : Box) :
    0 < (lookup table box).divisor.toInt :=
  Forall.lookup positive (fun _ => (by decide : (0 : Int) < (1 : Int64).toInt)) box

theorem lookup_of_getElem? (entry : table[box]? = some index) :
    IndexVar.lookup table box = index := by
  unfold IndexVar.lookup
  rw [Std.HashMap.getD_eq_getD_getElem?, entry, getD_some]

/-- A box by itself stands for its word, so only its entry matters. -/
theorem value_lookup (inBox : valuation box = some (.int word))
    (known : ∀ index, table[box]? = some index → index.value valuation = word) :
    (IndexVar.lookup table box).value valuation = word := by
  cases entry : table[box]? with
  | none =>
    unfold IndexVar.lookup
    rw [Std.HashMap.getD_eq_getD_getElem?, entry, getD_none]
    simp [IndexVar.value, IndexVar.quotient, IndexVar.scaled, IndexVar.ofBox, Valuation.wordIn,
      inBox, Const.int?]
  | some index =>
    rw [lookup_of_getElem? entry]
    exact known index entry

theorem IsExact.value_lookup (exact : table.IsExact valuation)
    (inBox : valuation box = some (.int word)) :
    (IndexVar.lookup table box).value valuation = word :=
  IndexTable.value_lookup inBox fun index entry =>
    (Const.int.inj (exact.value box index entry _ inBox)).symm

theorem words_of_operands? {function : Int64 → Int64 → Option Const}
    (evaluates : op.opcode.evaluate = fun args => Opcode.onWords args function)
    (operands : operands? op = some (box, word, wordFirst))
    (computed : op.computed valuation = some literal) :
    ∃ x, valuation box = some (.int x) ∧
      (if wordFirst then function word x else function x word) = some literal := by
  have words : ∀ {left right : Value}, op.args = [left, right] → ∃ x y,
      valuation.value left = some (.int x) ∧ valuation.value right = some (.int y) ∧
        function x y = some literal :=
    fun args => Operation.words_of_args evaluates (args ▸ rfl) (args ▸ rfl) computed
  obtain ⟨args, rfl⟩ | ⟨args, rfl⟩ := args_of_operands? operands
  · obtain ⟨x, _, inBox, ⟨⟩, value⟩ := words args
    exact ⟨x, inBox, value⟩
  · obtain ⟨_, x, ⟨⟩, inBox, value⟩ := words args
    exact ⟨x, inBox, value⟩

section

variable (derived : table.derive? op = some index)

include derived

/-- What a table tracks: a sum, difference, product or quotient of a box and a word. -/
theorem derive?_eq_some : ∃ box word wordFirst, operands? op = some (box, word, wordFirst) ∧
      (op.opcode = .intAdd ∧ (lookup table box).add? word = some index ∨
        op.opcode = .intSub ∧ wordFirst = false ∧ (lookup table box).sub? word = some index ∨
        op.opcode = .intMul ∧ (lookup table box).mul? word = some index ∨
        op.opcode = .intFloorDiv ∧ wordFirst = false ∧
          (lookup table box).div? word = some index) := by
  unfold derive? at derived
  split at derived
  next left right args =>
    obtain ⟨⟨box, word, wordFirst⟩, operands, derived⟩ := bind_eq_some_iff.mp derived
    refine ⟨box, word, wordFirst, ?_, ?_⟩
    · unfold operands?
      rw [args]
      exact operands
    dsimp only at derived
    split at derived <;> simp_all
  · cases derived

theorem exists_onWords_of_derive? :
    ∃ function, op.opcode.evaluate = fun args => Opcode.onWords args function := by
  obtain ⟨_, _, _, _, tracked⟩ := derive?_eq_some derived
  rcases tracked with ⟨is, _⟩ | ⟨is, _⟩ | ⟨is, _⟩ | ⟨is, _⟩ <;> exact is ▸ ⟨_, rfl⟩

theorem shape_derive? : ∃ box word wordFirst, operands? op = some (box, word, wordFirst) ∧
      index.base = (lookup table box).base ∧
      (op.opcode ≠ .intFloorDiv ∧ index.divisor = (lookup table box).divisor ∨
        op.opcode = .intFloorDiv ∧ 0 < word.toInt ∧
          Word.mul? (lookup table box).divisor word = some index.divisor) := by
  obtain ⟨box, word, wordFirst, operands, tracked⟩ := derive?_eq_some derived
  refine ⟨box, word, wordFirst, operands, ?_⟩
  obtain ⟨isAdd, fits⟩ | ⟨isSub, _, fits⟩ | ⟨isMul, fits⟩ | ⟨isDiv, _, fits⟩ := tracked
  · obtain ⟨_, _, isSum⟩ := bind_eq_some_iff.mp fits
    cases isSum
    exact ⟨rfl, .inl ⟨by rw [isAdd]; decide, rfl⟩⟩
  · obtain ⟨_, _, isDifference⟩ := bind_eq_some_iff.mp fits
    cases isDifference
    exact ⟨rfl, .inl ⟨by rw [isSub]; decide, rfl⟩⟩
  · obtain ⟨_, _, fits⟩ := bind_eq_some_iff.mp fits
    obtain ⟨_, _, isProduct⟩ := bind_eq_some_iff.mp fits
    cases isProduct
    exact ⟨rfl, .inl ⟨by rw [isMul]; decide, rfl⟩⟩
  · obtain ⟨positive, _, fits⟩ := pos_and_dvd_of_div? fits
    obtain ⟨divisor, divisorFits, isQuotient⟩ := bind_eq_some_iff.mp fits
    cases isQuotient
    exact ⟨rfl, .inr ⟨isDiv, positive, divisorFits⟩⟩

end

theorem IsPositive.derive? (positive : table.IsPositive) (derived : table.derive? op = some index) :
    0 < index.divisor.toInt := by
  obtain ⟨box, word, _, _, _, ⟨_, same⟩ | ⟨_, wordPositive, product⟩⟩ := shape_derive? derived
  · exact same ▸ positive.lookup box
  · exact toInt_of_mul? product ▸ mul_pos (positive.lookup box) wordPositive

theorem value_derive? (derived : table.derive? op = some index)
    (regular : table.IsRegularStep valuation op) (positive : table.IsPositive)
    (known : ∀ operands ∈ operands? op, ∀ word, valuation operands.1 = some (.int word) →
      (IndexVar.lookup table operands.1).value valuation = word)
    (computed : op.computed valuation = some literal) : literal = .int (index.value valuation) := by
  obtain ⟨box, word, wordFirst, operands, tracked⟩ := derive?_eq_some derived
  have keeps := regular _ operands (derived ▸ rfl)
  have value := known _ operands
  obtain ⟨isAdd, fits⟩ | ⟨isSub, rfl, fits⟩ | ⟨isMul, fits⟩ | ⟨isDiv, rfl, fits⟩ := tracked
  · obtain ⟨x, inBox, isSum⟩ := words_of_operands? (by rw [isAdd]; rfl) operands computed
    rw [value_add? fits, value x inBox]
    cases wordFirst <;> cases isSum
    · rfl
    · rw [Int64.add_comm]
  · obtain ⟨x, inBox, isDifference⟩ := words_of_operands? (by rw [isSub]; rfl) operands computed
    rw [value_sub? fits, value x inBox]
    cases isDifference
    rfl
  · obtain ⟨x, inBox, isProduct⟩ := words_of_operands? (by rw [isMul]; rfl) operands computed
    rw [value_mul? fits (positive.lookup box) (keeps.1 isMul), value x inBox]
    cases wordFirst <;> cases isProduct
    · rfl
    · rw [Int64.mul_comm]
  · obtain ⟨x, inBox, isQuotient⟩ := words_of_operands? (by rw [isDiv]; rfl) operands computed
    rw [(value_div?_iff fits (positive.lookup box)).mpr (keeps.2 isDiv), value x inBox]
    rw [if_neg Bool.false_ne_true] at isQuotient
    split at isQuotient
    · cases isQuotient
    · cases isQuotient
      rfl

theorem getElem?_extend_eq_some (found : (table.extend op)[box]? = some index) :
    op.result = some box ∧ table.derive? op = some index ∨ table[box]? = some index := by
  unfold extend at found
  split at found
  next result derivedIndex isResult derived =>
    rcases eq_or_getElem?_of_insert found with ⟨rfl, rfl⟩ | ⟨_, found⟩
    · exact .inl ⟨isResult, derived⟩
    · exact .inr found
  · exact .inr found

theorem Forall.extend (known : table.Forall property)
    (derives : ∀ box index, op.result = some box → table.derive? op = some index →
      property box index) : (table.extend op).Forall property := by
  intro box index found
  obtain ⟨isResult, derived⟩ | old := getElem?_extend_eq_some found
  · exact derives box index isResult derived
  · exact known box index old

theorem Forall.foldl (known : table.Forall property)
    (derives : ∀ op ∈ ops, ∀ table : IndexTable, table.Forall property → ∀ box index,
      op.result = some box → table.derive? op = some index → property box index) :
    (ops.foldl IndexTable.extend table).Forall property :=
  foldlRecOn ops _ known fun table known op isOp => known.extend (derives op isOp table known)

theorem IsPositive.extend (positive : table.IsPositive) : (table.extend op).IsPositive :=
  Forall.extend positive fun _ _ _ => positive.derive?

theorem IsExact.extend (exact : table.IsExact valuation)
    (regular : table.IsRegularStep valuation op) (tracks : valuation.Tracks [op]) :
    (table.extend op).IsExact valuation := by
  refine ⟨exact.positive.extend, Forall.extend exact.value fun box index isResult derived => ?_⟩
  exact fun literal inBox => value_derive? derived regular exact.positive
    (fun operands _ word inOperand => exact.value_lookup inOperand)
    (tracks op (mem_singleton.mpr rfl) table index derived box isResult literal inBox)

theorem isExact_of_tracks (exact : table.IsExact valuation) (tracks : valuation.Tracks ops)
    (regular : IsRegularFrom valuation table ops) :
    (ops.foldl extend table).IsExact valuation := by
  induction ops generalizing table with
  | nil => exact exact
  | cons op rest ih =>
    have first : valuation.Tracks [op] := fun other isOp => by
      cases mem_singleton.mp isOp
      exact tracks op mem_cons_self
    exact ih (exact.extend regular.1 first)
      (fun other isOp => tracks other (mem_cons_of_mem op isOp)) regular.2

/-- What a table tracks are sums, differences, products and quotients. -/
theorem tracks_of_satisfies (satisfied : valuation.Satisfies ops) : valuation.Tracks ops := by
  intro op isOp table index derived
  apply satisfied op isOp
  obtain ⟨_, _, _, _, tracked⟩ := derive?_eq_some derived
  rcases tracked with ⟨is, _⟩ | ⟨is, _⟩ | ⟨is, _⟩ | ⟨is, _⟩ <;> rw [is] <;> decide

theorem isExact_of_isRegularFrom (exact : table.IsExact valuation)
    (satisfied : valuation.Satisfies ops) (regular : IsRegularFrom valuation table ops) :
    (ops.foldl extend table).IsExact valuation :=
  isExact_of_tracks exact (tracks_of_satisfies satisfied) regular

theorem isExact_empty (valuation : Valuation) : IsExact ∅ valuation :=
  ⟨forall_empty _, forall_empty _⟩

abbrev IsUndivided (table : IndexTable) : Prop :=
  table.Forall fun _ index => index.divisor = 1

theorem IsUndivided.derive? (undivided : table.IsUndivided) (isOther : op.opcode ≠ .intFloorDiv)
    (derived : table.derive? op = some index) : index.divisor = 1 := by
  obtain ⟨source, _, _, _, _, ⟨_, same⟩ | ⟨isQuotient, _⟩⟩ := shape_derive? derived
  · exact same.trans (undivided.lookup (fun _ => rfl) source)
  · exact absurd isQuotient isOther

theorem undivided_foldl (noQuotient : ∀ op ∈ ops, op.opcode ≠ .intFloorDiv)
    (undivided : table.IsUndivided) : (ops.foldl IndexTable.extend table).IsUndivided :=
  undivided.foldl fun op isOp _ undivided _ _ _ =>
    IsUndivided.derive? undivided (noQuotient op isOp)

/-- Where nothing is divided, every product is regular. -/
theorem isRegularFrom_of_noQuotient (undivided : table.IsUndivided)
    (noQuotient : ∀ op ∈ ops, op.opcode ≠ .intFloorDiv) : IsRegularFrom valuation table ops := by
  induction ops generalizing table with
  | nil => trivial
  | cons op rest ih =>
    have isOther := noQuotient op mem_cons_self
    refine ⟨fun operands _ _ => ⟨fun _ => .inl ?_, fun isQuotient => absurd isQuotient isOther⟩,
      ih (undivided.extend fun _ _ _ => undivided.derive? isOther) fun other isOp =>
        noQuotient other (mem_cons_of_mem op isOp)⟩
    exact undivided.lookup (fun _ => rfl) operands.1

/-- The index is computed from a box, which holds a word where the given box does. -/
def IsBasedFor (valuation : Valuation) (box : Box) (index : IndexVar) : Prop :=
  ∃ base, index.base = some base ∧ ∀ word, valuation box = some (.int word) →
    ∃ known, valuation base = some (.int known)

theorem isBasedFor_foldl (tracks : valuation.Tracks ops)
    (based : table.Forall (IsBasedFor valuation)) :
    (ops.foldl IndexTable.extend table).Forall (IsBasedFor valuation) := by
  refine based.foldl fun op isOp table based result index isResult derived => ?_
  obtain ⟨source, word, wordFirst, operands, sameBase, _⟩ := shape_derive? derived
  obtain ⟨base, isBase, holds⟩ :=
    based.lookup (fun box => ⟨box, rfl, fun word inBox => ⟨word, inBox⟩⟩) source
  refine ⟨base, sameBase.trans isBase, fun value inResult => ?_⟩
  have computed := tracks op isOp table index derived result isResult _ inResult
  obtain ⟨function, evaluates⟩ := exists_onWords_of_derive? derived
  obtain ⟨known, inSource, _⟩ := words_of_operands? evaluates operands computed
  exact holds known inSource

/-! ## Entries that divide nothing -/

theorem undivided_of_derive? (positive : table.IsPositive) (derived : table.derive? op = some index)
    (undivided : index.divisor = 1) :
    ∀ operands ∈ operands? op, (IndexVar.lookup table operands.1).divisor = 1 ∧
      (op.opcode = .intFloorDiv → operands.2.1 = 1) := by
  obtain ⟨box, word, _, isOperands, _, shape⟩ := shape_derive? derived
  intro operands member
  cases isOperands.symm.trans member
  rcases shape with ⟨isOther, same⟩ | ⟨_, _, divisorFits⟩
  · exact ⟨same.symm.trans undivided, fun isQuotient => absurd isQuotient isOther⟩
  have product : (1 : Int) = _ := (congrArg Int64.toInt undivided).symm.trans
    (toInt_of_mul? divisorFits)
  have isOne : (IndexVar.lookup table box).divisor.toInt = 1 :=
    eq_one_of_mul_eq_one_right (le_of_lt (positive.lookup box)) product.symm
  rw [isOne, one_mul] at product
  exact ⟨Int64.toInt.inj isOne, fun _ => Int64.toInt.inj product.symm⟩

/-- An entry that divides nothing stands for the word in its box, whatever the words are. -/
theorem value_of_undivided (tracks : valuation.Tracks ops)
    (found : (IndexTable.ofOperations ops)[box]? = some index) (undivided : index.divisor = 1)
    (inBox : literal ∈ valuation box) : literal = .int (index.value valuation) := by
  have known : (IndexTable.ofOperations ops).Forall fun box index => 0 < index.divisor.toInt ∧
      (index.divisor = 1 → ∀ literal ∈ valuation box, literal = .int (index.value valuation)) := by
    refine (forall_empty _).foldl fun op isOp table known made index isResult derived => ?_
    have positive : table.IsPositive := fun box index entry => (known box index entry).1
    refine ⟨positive.derive? derived, fun isUndivided value inMade => ?_⟩
    have source := undivided_of_derive? positive derived isUndivided
    refine value_derive? derived (fun operands isOperands _ => ?_) positive
      (fun operands isOperands word inOperand => ?_)
      (tracks op isOp table index derived made isResult value inMade)
    · exact ⟨fun _ => .inl (source operands isOperands).1,
        fun isQuotient => .inl ((source operands isOperands).2 isQuotient)⟩
    refine value_lookup inOperand fun index entry => ?_
    have isOne := (source operands isOperands).1
    rw [lookup_of_getElem? entry] at isOne
    exact (Const.int.inj ((known _ index entry).2 isOne _ inOperand)).symm
  exact (known box index found).2 undivided literal inBox

end IndexTable

end LinearTrace
