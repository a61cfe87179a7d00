import Mathlib
import LinearTrace.MemoryRef
import LinearTrace.Proofs.IndexVar
import LinearTrace.Proofs.Scope

/-!
# Accesses that do not overlap

References that cannot alias lie on one line of indices, at least a stride apart.  Where the
index table is exact, so are the words that they access: they are different items, or byte
ranges that do not meet.  Without quotients every entry of the table is a multiple of its base
plus an offset, and references that are neighbours stand for neighbouring places.
-/

namespace LinearTrace

open Option IndexVar MemoryRef IndexTable Int64

namespace MemoryRef

variable {left right : MemoryRef} {valuation : Valuation}

/-- Accesses at two indices touch different items, or no common byte. -/
def AreApart (ref : MemoryRef) (first second : Int64) : Prop :=
  if ref.byteIndexed then
    ∀ i < ref.descriptor.itemSize, ∀ j < ref.descriptor.itemSize,
      first + Int64.ofNat i ≠ second + Int64.ofNat j
  else
    first ≠ second

/-- References that cannot alias are on one line, at least a stride apart. -/
theorem line_of_mayAlias_eq_false (sameDescriptor : left.descriptor = right.descriptor)
    (apart : left.mayAlias right = .ok false) :
    left.index.sameBase right.index ∧ left.index.sameFactor right.index ∧
      ∃ distance, left.index.distance? right.index = some distance ∧
        left.stride.toInt ≤ distance.toInt.natAbs ∧ distance.toInt.natAbs < 2 ^ 63 := by
  unfold mayAlias at apart
  rw [if_neg (not_not.mpr sameDescriptor)] at apart
  split at apart
  · cases apart
  rename_i onLine
  simp only [Bool.or_eq_true, Bool.not_eq_true', not_or, Bool.not_eq_false] at onLine
  refine ⟨onLine.1.2, onLine.2, ?_⟩
  split at apart
  next distance isDistance =>
    refine ⟨distance, isDistance, ?_⟩
    unfold magnitude at apart
    split at apart
    next value isValue =>
      have magnitude : value.toInt = distance.toInt.natAbs := Word.toInt_of_ofInt? isValue
      have range := Word.toInt_range value
      have far : ¬ value < left.stride := of_decide_eq_false (Except.ok.inj apart)
      rw [lt_iff_toInt_lt] at far
      omega
    · cases apart
  · cases apart

theorem quotient_eq_of_line {first second : IndexVar} (sameBase : first.sameBase second)
    (sameFactor : first.sameFactor second) :
    first.quotient valuation = second.quotient valuation := by
  unfold IndexVar.sameFactor at sameFactor
  rw [Bool.and_eq_true, beq_iff_eq, beq_iff_eq] at sameFactor
  unfold IndexVar.quotient IndexVar.scaled
  rw [beq_iff_eq.mp sameBase, sameFactor.1, sameFactor.2]

/-- References that cannot alias stand for places that do not overlap. -/
theorem areApart_of_mayAlias_eq_false (sameDescriptor : left.descriptor = right.descriptor)
    (small : left.byteIndexed → left.descriptor.itemSize < 2 ^ 63)
    (apart : left.mayAlias right = .ok false) :
    left.AreApart (left.index.value valuation) (right.index.value valuation) := by
  obtain ⟨sameBase, sameFactor, distance, isDistance, far, near⟩ :=
    line_of_mayAlias_eq_false sameDescriptor apart
  have difference : distance = left.index.offset - right.index.offset :=
    Word.eq_sub_of_sub? isDistance
  unfold AreApart IndexVar.value
  rw [quotient_eq_of_line sameBase sameFactor]
  split
  next isByte =>
    have fits := small isByte
    have stride : left.stride.toInt = left.descriptor.itemSize := by
      unfold stride
      rw [if_pos isByte, toInt_ofNat_of_lt fits]
    intro i inLeft j inRight same
    have gap : distance = ofNat j - ofNat i := by grind
    have gapInt : distance.toInt = (j : Int) - i := by
      rw [gap, toInt_sub, toInt_ofNat_of_lt (by omega),
        toInt_ofNat_of_lt (by omega), Word.bmod_of_range (by omega) (by omega)]
    omega
  next isItem =>
    have stride : left.stride.toInt = 1 := by
      unfold stride
      rw [if_neg isItem]
      rfl
    intro same
    have zero : distance = 0 := by grind
    rw [zero, stride] at far
    exact absurd far (by decide)

end MemoryRef

/-! ## Accesses of a list of operations -/

section Accesses

variable {ops : List Operation} {valuation : Valuation} {op : Operation} {ref : MemoryRef}

variable {table : IndexTable} {index : IndexVar} {word : Int64}

/-- The index of an access, as a word. -/
def Operation.indexWord? (op : Operation) (valuation : Valuation) : Option Int64 :=
  ((op.args[1]?).bind valuation.value).bind Const.int?

theorem IndexTable.IsExact.value_ofValue? (exact : table.IsExact valuation)
    {operand : Value} (isIndex : ofValue? table operand = some index)
    (isWord : (valuation.value operand).bind Const.int? = some word) :
    index.value valuation = word := by
  cases operand with
  | const literal =>
    obtain ⟨known, isKnown, rfl⟩ := map_eq_some_iff.mp isIndex
    cases isKnown.symm.trans isWord
    simp [IndexVar.value, quotient, scaled, ofWord]
  | box box =>
    rw [ofValue?] at isIndex
    split at isIndex
    · cases isIndex
      obtain ⟨literal, inBox, isInt⟩ := bind_eq_some_iff.mp isWord
      cases literal with
      | int value =>
        cases isInt
        exact exact.value_lookup inBox
      | float value => cases isInt
      | ref value => cases isInt
    · cases isIndex

theorem IndexTable.IsExact.value_ofOperation? (exact : table.IsExact valuation)
    (access : ofOperation? table op = some ref)
    (index : op.indexWord? valuation = some word) : ref.index.value valuation = word := by
  unfold ofOperation? at access
  split at access
  next array operand rest args =>
    obtain ⟨_, _, access⟩ := bind_eq_some_iff.mp access
    obtain ⟨_, _, access⟩ := bind_eq_some_iff.mp access
    obtain ⟨form, isForm, isRef⟩ := bind_eq_some_iff.mp access
    cases isRef
    unfold Operation.indexWord? at index
    rw [args] at index
    exact exact.value_ofValue? isForm index
  · cases access

/-- References of one descriptor and index mode that cannot alias do not overlap, on every
valuation that satisfies the operations and on which no division is tracked or every tracked
product and quotient keeps the affine form of its operand. -/
theorem areApart_of_isRegularFrom (satisfied : valuation.Satisfies ops)
    (regular : (∀ op ∈ ops, op.opcode ≠ .intFloorDiv) ∨
      IndexTable.IsRegularFrom valuation ∅ ops)
    {first second : Operation} {left right : MemoryRef}
    (firstAccess : MemoryRef.ofOperation? (.ofOperations ops) first = some left)
    (secondAccess : MemoryRef.ofOperation? (.ofOperations ops) second = some right)
    (sameDescriptor : left.descriptor = right.descriptor)
    (small : left.byteIndexed = true → left.descriptor.itemSize < 2 ^ 63)
    (apart : left.mayAlias right = .ok false) {x y : Int64}
    (firstIndex : first.indexWord? valuation = some x)
    (secondIndex : second.indexWord? valuation = some y) : left.AreApart x y := by
  have keepsForm : IndexTable.IsRegularFrom valuation ∅ ops := by
    obtain noQuotient | keepsForm := regular
    · exact IndexTable.isRegularFrom_of_noQuotient (fun box index found => by simp at found)
        noQuotient
    · exact keepsForm
  have exact : (IndexTable.ofOperations ops).IsExact valuation :=
    IndexTable.isExact_of_isRegularFrom (IndexTable.isExact_empty valuation) satisfied keepsForm
  rw [← exact.value_ofOperation? firstAccess firstIndex,
    ← exact.value_ofOperation? secondAccess secondIndex]
  exact MemoryRef.areApart_of_mayAlias_eq_false sameDescriptor small apart

theorem isExact_of_noQuotient (noQuotient : ∀ op ∈ ops, op.opcode ≠ .intFloorDiv)
    (satisfied : valuation.Satisfies ops) : (ofOperations ops).IsExact valuation :=
  isExact_of_isRegularFrom (isExact_empty valuation) satisfied
    (isRegularFrom_of_noQuotient (fun box index found => by simp at found) noQuotient)

theorem IndexTable.IsExact.exists_base (exact : table.IsExact valuation)
    {box : Box} (found : table[box]? = some index)
    (undivided : index.divisor = 1) (based : IndexTable.IsBasedFor valuation box index) :
    ∃ base, index.base = some base ∧ ∀ literal ∈ valuation box, ∃ word,
      valuation base = some (.int word) ∧
        literal = .int (word * index.multiplier + index.offset) := by
  obtain ⟨base, isBase, holds⟩ := based
  refine ⟨base, isBase, fun literal inBox => ?_⟩
  obtain rfl := exact.value box index found literal inBox
  obtain ⟨word, inBase⟩ := holds _ inBox
  refine ⟨word, inBase, ?_⟩
  unfold IndexVar.value IndexVar.quotient IndexVar.scaled Valuation.wordIn
  rw [isBase, undivided, Int64.div_one]
  dsimp only
  rw [inBase]
  rfl

theorem MemoryRef.value_of_isAdjacentAfter {left right : MemoryRef}
    (adjacent : left.isAdjacentAfter right) :
    right.index.value valuation = left.index.value valuation + left.stride := by
  unfold isAdjacentAfter sameLine at adjacent
  simp only [Bool.and_eq_true, beq_iff_eq] at adjacent
  obtain ⟨⟨⟨_, sameBase⟩, sameFactor⟩, isDistance⟩ := adjacent
  have stride : left.stride = right.index.offset - left.index.offset :=
    Word.eq_sub_of_sub? isDistance
  unfold IndexVar.value
  rw [quotient_eq_of_line sameBase sameFactor, stride]
  grind

/-- Without quotients each entry divides by one and stands for a multiple of its base plus an
offset, where words wrap.  So where one access touches the item directly after another's, its index
is that of the other plus the stride. -/
theorem affine_of_noQuotient (noQuotient : ∀ op ∈ ops, op.opcode ≠ .intFloorDiv)
    (satisfied : valuation.Satisfies ops) :
    (∀ (box : Box) (index : IndexVar), (IndexTable.ofOperations ops)[box]? = some index →
      index.divisor = 1 ∧ ∃ base, index.base = some base ∧ ∀ literal ∈ valuation box, ∃ word,
        valuation base = some (.int word) ∧
          literal = .int (word * index.multiplier + index.offset)) ∧
    ∀ (first second : Operation) (left right : MemoryRef) (x y : Int64),
      MemoryRef.ofOperation? (.ofOperations ops) first = some left →
      MemoryRef.ofOperation? (.ofOperations ops) second = some right →
      left.byteIndexed = right.byteIndexed → left.isAdjacentAfter right = true →
      first.indexWord? valuation = some x → second.indexWord? valuation = some y →
      y = x + left.stride := by
  have exact := isExact_of_noQuotient noQuotient satisfied
  refine ⟨fun box index found => ?_, ?_⟩
  · have undivided := IndexTable.undivided_foldl noQuotient
      (fun box index found => by simp at found) box index found
    have based := IndexTable.isBasedFor_foldl (IndexTable.tracks_of_satisfies satisfied)
      (fun box index found => by simp at found) box index found
    exact ⟨undivided, exact.exists_base found undivided based⟩
  · intro first second left right x y firstAccess secondAccess _ adjacent firstIndex secondIndex
    rw [← exact.value_ofOperation? firstAccess firstIndex,
      ← exact.value_ofOperation? secondAccess secondIndex]
    exact MemoryRef.value_of_isAdjacentAfter adjacent

end Accesses

/-- Stores to the items at the half of an index and at the half of the index plus two. -/
def HalvedIndices.array : Box := ⟨0, .ref⟩

namespace HalvedIndices

def index : Box := ⟨1, .int⟩

def half : Box := ⟨2, .int⟩

def raised : Box := ⟨3, .int⟩

def raisedHalf : Box := ⟨4, .int⟩

def header : List Value := [.box array, .box index]

def store (position : Box) : Operation :=
  { opcode := .setArrayItemRaw, args := [.box array, .box position, .int 7],
    descriptor := some (.array (.ints 1 8)) }

/-- An operation on a box and two. -/
def withTwo (opcode : Opcode) (operand result : Box) : Operation :=
  { opcode := opcode, args := [.box operand, .int 2], result := some result }

def ops : List Operation :=
  [{ opcode := .label, args := header }, withTwo .intFloorDiv index half,
    withTwo .intAdd index raised, withTwo .intFloorDiv raised raisedHalf, store half,
    store raisedHalf, { opcode := .jump, args := header }]

/-- The values of a run from a given index. -/
def startingAt (start : Int64) : Valuation
  | ⟨1, .int⟩ => some (.int start)
  | ⟨2, .int⟩ => some (.int (start / 2))
  | ⟨3, .int⟩ => some (.int (start + 2))
  | ⟨4, .int⟩ => some (.int ((start + 2) / 2))
  | _ => none

/-- The reference of a store to the half of the index plus an offset. -/
def halfPlus (offset : Int64) : MemoryRef where
  array := .box array
  descriptor := .ints 1 8
  index := { base := some index, divisor := 2, offset := offset }
  byteIndexed := false

theorem ofOperation?_store_half :
    ofOperation? (.ofOperations ops) (store half) = some (halfPlus 0) := by
  cbv

theorem ofOperation?_store_raisedHalf :
    ofOperation? (.ofOperations ops) (store raisedHalf) = some (halfPlus 1) := by
  cbv

def after : Operation :=
  { opcode := .intAdd, args := [.int 1, .box half], result := some raised }

/-- Stores to the items at the double of an index and directly after it. -/
def doubled : List Operation :=
  [withTwo .intMul index half, after, store half, store raised]

/-- The values of a run in which the double wraps. -/
def wrapping : Valuation
  | ⟨1, .int⟩ => some (.int 4611686018427387904)
  | ⟨2, .int⟩ => some (.int Int64.minValue)
  | ⟨3, .int⟩ => some (.int (Int64.minValue + 1))
  | _ => none

/-- The reference of a store to the double of the index plus an offset. -/
def doublePlus (offset : Int64) : MemoryRef where
  array := .box array
  descriptor := .ints 1 8
  index := { base := some index, multiplier := 2, offset := offset }
  byteIndexed := false

theorem ofOperation?_store_double :
    ofOperation? (.ofOperations doubled) (store half) = some (doublePlus 0) := by
  cbv

theorem ofOperation?_store_raised :
    ofOperation? (.ofOperations doubled) (store raised) = some (doublePlus 1) := by
  cbv

theorem lookup_index : lookup ∅ index = .ofBox index := by
  cbv

theorem lookup_raised : lookup (((∅ : IndexTable).extend (withTwo .intFloorDiv index half)).extend
      (withTwo .intAdd index raised)) raised = { base := some index, offset := 2 } := by
  cbv

theorem isRegularFrom_startingAt_five : IndexTable.IsRegularFrom (startingAt 5) ∅ ops := by
  have first : (ofBox index).DividesBy (startingAt 5) 2 := by decide
  have second : IndexVar.DividesBy (startingAt 5) { base := some index, offset := 2 } 2 := by decide
  refine ⟨isRegularStep_of_ne (by decide) (by decide), ?_,
    isRegularStep_of_ne (by decide) (by decide), ?_,
    isRegularStep_of_ne (by decide) (by decide),
    isRegularStep_of_ne (by decide) (by decide),
    isRegularStep_of_ne (by decide) (by decide), trivial⟩
  · rintro operands ⟨⟩ _
    refine ⟨fun isProduct => absurd isProduct (by decide), fun _ => ?_⟩
    exact lookup_index.symm ▸ first
  · rintro operands ⟨⟩ _
    refine ⟨fun isProduct => absurd isProduct (by decide), fun _ => ?_⟩
    exact lookup_raised.symm ▸ second

end HalvedIndices

open HalvedIndices in
/-- The second index is the first plus one also where the double wraps. -/
theorem affine_of_doubledIndex :
    wrapping.Satisfies doubled ∧ (doublePlus 0).isAdjacentAfter (doublePlus 1) = true ∧
      (store half).indexWord? wrapping = some Int64.minValue ∧
      Int64.minValue + 1 = Int64.minValue + (doublePlus 0).stride := by
  have satisfied : wrapping.Satisfies doubled := by decide
  have adjacent : (doublePlus 0).isAdjacentAfter (doublePlus 1) = true := by decide
  have first : (store half).indexWord? wrapping = some Int64.minValue := by decide
  have second : (store raised).indexWord? wrapping = some (Int64.minValue + 1) := by decide
  exact ⟨satisfied, adjacent, first, (affine_of_noQuotient (by decide) satisfied).2 _ _ _ _ _ _
    ofOperation?_store_double ofOperation?_store_raised rfl adjacent first second⟩

open HalvedIndices in
/-- From five the stores go to the items two and three. -/
theorem areApart_of_halvedIndices :
    (startingAt 5).Satisfies ops ∧ (halfPlus 0).mayAlias (halfPlus 1) = .ok false ∧
      (halfPlus 0).AreApart 2 3 := by
  have satisfied : (startingAt 5).Satisfies ops := by decide
  have apart : (halfPlus 0).mayAlias (halfPlus 1) = .ok false := by decide
  exact ⟨satisfied, apart, areApart_of_isRegularFrom satisfied (Or.inr isRegularFrom_startingAt_five)
    ofOperation?_store_half ofOperation?_store_raisedHalf rfl (fun _ => by decide) apart
    (by decide : (store half).indexWord? (startingAt 5) = some 2)
    (by decide : (store raisedHalf).indexWord? (startingAt 5) = some 3)⟩

open HalvedIndices in
/-- From minus one both stores go to the item zero, since division truncates; the references
still do not alias. -/
theorem not_areApart_of_halvedIndices :
    Scoped ops ∧ (startingAt (-1)).Satisfies ops ∧
      MemoryRef.ofOperation? (.ofOperations ops) (store half) = some (halfPlus 0) ∧
      MemoryRef.ofOperation? (.ofOperations ops) (store raisedHalf) = some (halfPlus 1) ∧
      (halfPlus 0).mayAlias (halfPlus 1) = .ok false ∧
      (store half).indexWord? (startingAt (-1)) = some 0 ∧
      (store raisedHalf).indexWord? (startingAt (-1)) = some 0 ∧ ¬ (halfPlus 0).AreApart 0 0 :=
  ⟨by decide, by decide, ofOperation?_store_half, ofOperation?_store_raisedHalf, by decide,
    by decide, by decide, fun apart => apart rfl⟩

end LinearTrace
