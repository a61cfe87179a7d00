import LinearTrace.Proofs.IndexVar
import LinearTrace.Proofs.Scope.Sequence

/-!
# Lists of operations on words

Every box holds a word.  An operation whose operands determine a word puts it into its
result; the result of any other operation (a load, a call, a division by zero) keeps the word
that it is given.  In a list in which every box is defined once and before it is read, the
words that this leads to are the only ones that satisfy all operations at once.
-/

namespace LinearTrace

open List

abbrev Words := Box → Int64

namespace Words

variable {words final : Words} {op : Operation} {ops : List Operation} {box : Box}
  {verdict : Operation → Bool}

variable {defined : List Box} {index : IndexVar}

/-- The word of an operand; a constant is read by its bits. -/
def read (words : Words) : Value → Int64
  | .box box => words box
  | .const literal => literal.bits.toInt64

def operands (words : Words) (op : Operation) : List Const :=
  op.args.map fun value => .int (words.read value)

/-- The word that the operation computes, if its operands determine one. -/
def word? (words : Words) (op : Operation) : Option Int64 :=
  (op.opcode.evaluate (words.operands op)).bind Const.int?

/-- The words once an operation has been computed. -/
def after (words : Words) (op : Operation) : Words := fun box =>
  if op.result = some box then (words.word? op).getD (words box) else words box

/-- The words once all operations have been computed. -/
def settle (words : Words) (ops : List Operation) : Words :=
  ops.foldl after words

/-- A guard passes; one that words do not decide gets a verdict. -/
def passes (words : Words) (verdict : Operation → Bool) (op : Operation) : Bool :=
  (op.opcode.check .empty (words.operands op)).getD (verdict op)

def AllPass (words : Words) (verdict : Operation → Bool) (ops : List Operation) : Prop :=
  ∀ op ∈ ops, op.isGuard = true → (words.settle ops).passes verdict op = true

instance : Decidable (words.AllPass verdict ops) :=
  inferInstanceAs (Decidable (∀ op ∈ ops, _ → _))

/-! ## Operands -/

@[simp] theorem read_int (words : Words) (word : Int64) : words.read (.const (.int word)) = word :=
  Int64.toInt64_toUInt64 word

theorem getElem?_operands {position : Nat} {value : Value} (isArg : op.args[position]? = some value) :
    (words.operands op)[position]? = some (.int (words.read value)) := by
  unfold operands
  rw [getElem?_map, isArg]
  rfl

section

variable (same : ∀ box, .box box ∈ op.args → words box = final box)

include same

theorem operands_congr : words.operands op = final.operands op := by
  refine map_congr_left fun value isArg => ?_
  cases value with
  | box box =>
    change Const.int (words box) = .int (final box)
    rw [same box isArg]
  | const literal => rfl

theorem word?_congr : words.word? op = final.word? op := by
  unfold word?
  rw [operands_congr same]

theorem passes_congr : words.passes verdict op = final.passes verdict op := by
  unfold passes
  rw [operands_congr same]

end

theorem word?_of_isGuard (isGuard : op.isGuard) : words.word? op = none := by
  have undefined : op.opcode.evaluate (words.operands op) = none := by
    unfold Operation.isGuard at isGuard
    generalize op.opcode = opcode at isGuard
    revert isGuard
    cases opcode <;> first | exact fun _ => rfl | exact nofun
  unfold word?
  rw [undefined]
  rfl

/-! ## Single assignment -/

/-- Every box is defined once, and not read before its definition is complete. -/
structure IsOrdered (ops : List Operation) : Prop where
  apart : ops.Pairwise fun earlier later =>
    ∀ box, later.result = some box → .box box ∉ earlier.args ∧ earlier.result ≠ some box
  irreflexive : ∀ op ∈ ops, ∀ box, op.result = some box → .box box ∉ op.args

theorem IsOrdered.sublist {fewer : List Operation} (ordered : IsOrdered ops)
    (sublist : fewer.Sublist ops) : IsOrdered fewer :=
  ⟨ordered.apart.sublist sublist, fun op isOp => ordered.irreflexive op (sublist.subset isOp)⟩

theorem IsOrdered.tail (ordered : IsOrdered (op :: ops)) : IsOrdered ops :=
  ordered.sublist (sublist_cons_self op ops)

theorem result_ne_of_scopedFrom (inScope : ScopedFrom defined ops)
    (isOp : op ∈ ops) (isDefined : box ∈ defined) : op.result ≠ some box := by
  obtain ⟨position, found⟩ := mem_iff_getElem?.mp isOp
  intro isResult
  exact (scopedFrom_iff_getElem?.mp inScope position op found).2 box isResult
    (mem_append_left _ isDefined)

theorem isOrdered_of_scopedFrom (inScope : ScopedFrom defined ops) : IsOrdered ops := by
  induction ops generalizing defined with
  | nil => exact ⟨List.Pairwise.nil, fun op isOp => absurd isOp not_mem_nil⟩
  | cons op rest ih =>
    obtain ⟨⟨reads, isNew⟩, inScope⟩ := inScope
    have known : ∀ box, .box box ∈ op.args → box ∈ defined :=
      fun box isArg => reads _ (mem_append_left _ isArg) box rfl
    obtain ⟨apart, irreflexive⟩ := ih inScope
    refine ⟨pairwise_cons.mpr ⟨fun later isLater box isResult => ⟨?_, ?_⟩, apart⟩, ?_⟩
    · intro isArg
      exact result_ne_of_scopedFrom inScope isLater (mem_append_left _ (known box isArg)) isResult
    · intro isOwn
      exact result_ne_of_scopedFrom inScope isLater
        (mem_append_right _ (Option.mem_toList.mpr isOwn)) isResult
    · intro other isOther box isResult isArg
      rcases mem_cons.mp isOther with rfl | isRest
      · exact isNew box isResult (known box isArg)
      · exact irreflexive other isRest box isResult isArg

theorem IsOrdered.eq_of_result {other : Operation} (ordered : IsOrdered ops) (isOp : op ∈ ops)
    (isOther : other ∈ ops) (isResult : op.result = some box)
    (isSame : other.result = some box) : op = other := by
  induction ops with
  | nil => cases isOp
  | cons head rest ih =>
    have apart := (pairwise_cons.mp ordered.apart).1
    rcases mem_cons.mp isOp with rfl | isLater
    · rcases mem_cons.mp isOther with rfl | otherLater
      · rfl
      · exact absurd isResult (apart other otherLater box isSame).2
    · rcases mem_cons.mp isOther with rfl | otherLater
      · exact absurd isSame (apart op isLater box isResult).2
      · exact ih ordered.tail isLater otherLater

/-! ## Settled words -/

theorem after_of_ne (notResult : op.result ≠ some box) : words.after op box = words box :=
  if_neg notResult

theorem after_of_result (isResult : op.result = some box) :
    words.after op box = (words.word? op).getD (words box) :=
  if_pos isResult

theorem settle_of_not_result (notResult : ∀ op ∈ ops, op.result ≠ some box) :
    words.settle ops box = words box := by
  induction ops generalizing words with
  | nil => rfl
  | cons op rest ih =>
    change (words.after op).settle rest box = words box
    rw [ih fun other isOther => notResult other (mem_cons_of_mem _ isOther),
      after_of_ne (notResult op mem_cons_self)]

theorem settle_of_arg (ordered : IsOrdered (op :: ops)) (isArg : .box box ∈ op.args) :
    words.settle (op :: ops) box = words box := by
  apply settle_of_not_result
  intro other isOther isResult
  rcases mem_cons.mp isOther with rfl | isLater
  · exact ordered.irreflexive other mem_cons_self box isResult isArg
  · exact ((pairwise_cons.mp ordered.apart).1 other isLater box isResult).1 isArg

/-- Settled words satisfy every operation. -/
theorem settle_of_result (words : Words) (ordered : IsOrdered ops) (isOp : op ∈ ops)
    (isResult : op.result = some box) :
    words.settle ops box = ((words.settle ops).word? op).getD (words box) := by
  induction ops generalizing words with
  | nil => cases isOp
  | cons head rest ih =>
    have apart := (pairwise_cons.mp ordered.apart).1
    rcases mem_cons.mp isOp with rfl | isLater
    · rw [word?_congr fun box isArg => settle_of_arg ordered isArg]
      change (words.after op).settle rest box = _
      rw [settle_of_not_result fun later isLater isSame => ?_, after_of_result isResult]
      exact (apart later isLater box isSame).2 isResult
    · change (words.after head).settle rest box =
        (((words.after head).settle rest).word? op).getD (words box)
      rw [ih (words.after head) ordered.tail isLater,
        after_of_ne (apart op isLater box isResult).2]

/-- Words that satisfy every operation are settled, as far as the operations read them. -/
theorem settle_eq_of_arg (ordered : IsOrdered ops)
    (solves : ∀ op ∈ ops, ∀ box, op.result = some box →
      final box = (final.word? op).getD (words box))
    (starts : ∀ op ∈ ops, ∀ box, .box box ∈ op.args →
      (∀ other ∈ ops, other.result ≠ some box) → final box = words box)
    (isOp : op ∈ ops) (isArg : .box box ∈ op.args) : words.settle ops box = final box := by
  induction ops generalizing words with
  | nil => cases isOp
  | cons head rest ih =>
    have apart := (pairwise_cons.mp ordered.apart).1
    have headArgs : ∀ box, .box box ∈ head.args → words box = final box := by
      intro box isArg
      refine (starts head mem_cons_self box isArg fun other isOther isResult => ?_).symm
      rcases mem_cons.mp isOther with rfl | isLater
      · exact ordered.irreflexive other mem_cons_self box isResult isArg
      · exact (apart other isLater box isResult).1 isArg
    rcases mem_cons.mp isOp with rfl | isLater
    · rw [settle_of_arg ordered isArg, headArgs box isArg]
    refine ih ordered.tail (fun other isOther made isResult => ?_)
      (fun other isOther read isRead notResult => ?_) isLater
    · rw [after_of_ne (apart other isOther made isResult).2]
      exact solves other (mem_cons_of_mem _ isOther) made isResult
    by_cases isHead : head.result = some read
    · rw [after_of_result isHead, word?_congr headArgs]
      exact solves head mem_cons_self read isHead
    rw [after_of_ne isHead]
    refine starts other (mem_cons_of_mem _ isOther) read isRead fun maker isMaker => ?_
    rcases mem_cons.mp isMaker with rfl | isRest
    · exact isHead
    · exact notResult maker isRest

/-! ## Index tables -/

def valuation (words : Words) : Valuation := fun box => some (.int (words box))

theorem computed_valuation (constants : ∀ literal, .const literal ∈ op.args →
    ∃ word, literal = .int word) :
    op.computed words.valuation = op.opcode.evaluate (words.operands op) := by
  have values : words.valuation.values op.args = some (words.operands op) := by
    unfold Valuation.values operands
    generalize op.args = args at constants
    induction args with
    | nil => rfl
    | cons value rest ih =>
      rw [mapM_cons, ih fun literal isArg => constants literal (mem_cons_of_mem _ isArg)]
      cases value with
      | box box => rfl
      | const literal =>
        obtain ⟨word, rfl⟩ := constants literal mem_cons_self
        rw [map_cons, read_int]
        rfl
  unfold Operation.computed
  rw [values]
  rfl

theorem evaluate_of_derive? (words : Words) {table : IndexTable}
    (derived : table.derive? op = some index) :
    ∃ word, op.opcode.evaluate (words.operands op) = some (.int word) ∧
      op.computed words.valuation = some (.int word) := by
  obtain ⟨source, constant, wordFirst, isOperands, tracked⟩ := IndexTable.derive?_eq_some derived
  have args := IndexTable.args_of_operands? isOperands
  have same : op.computed words.valuation = op.opcode.evaluate (words.operands op) := by
    refine computed_valuation fun literal isArg => ⟨constant, ?_⟩
    rcases args with ⟨args, _⟩ | ⟨args, _⟩ <;> simpa [args] using isArg
  simp only [same, and_self]
  unfold operands
  obtain ⟨opcode, _⟩ | ⟨opcode, _⟩ | ⟨opcode, _⟩ | ⟨opcode, rfl, fits⟩ := tracked
  · rcases args with ⟨args, _⟩ | ⟨args, _⟩ <;> rw [opcode, args] <;> exact ⟨_, rfl⟩
  · rcases args with ⟨args, _⟩ | ⟨args, _⟩ <;> rw [opcode, args] <;> exact ⟨_, rfl⟩
  · rcases args with ⟨args, _⟩ | ⟨args, _⟩ <;> rw [opcode, args] <;> exact ⟨_, rfl⟩
  have nonzero : constant ≠ 0 := by
    rintro rfl
    exact absurd (IndexVar.pos_and_dvd_of_div? fits).1 (by decide)
  obtain ⟨args, _⟩ | ⟨_, isFirst⟩ := args
  · rw [opcode, args, map_cons, map_cons, read_int]
    exact ⟨_, if_neg nonzero⟩
  · cases isFirst

theorem word?_of_evaluate {word : Int64}
    (evaluated : op.opcode.evaluate (words.operands op) = some (.int word)) :
    words.word? op = some word := by
  unfold word?
  rw [evaluated]
  rfl

theorem tracks_settle (words : Words) (ordered : IsOrdered ops) :
    (words.settle ops).valuation.Tracks ops := by
  intro op isOp table index derived result isResult literal inBox
  obtain ⟨word, evaluated, computed⟩ := evaluate_of_derive? (words.settle ops) derived
  have value := settle_of_result words ordered isOp isResult
  rw [word?_of_evaluate evaluated, Option.getD_some] at value
  rw [computed, ← value]
  exact inBox.symm ▸ rfl

theorem settle_of_unit {base : Box} (ordered : IsOrdered ops)
    (found : (IndexTable.ofOperations ops)[box]? = some index) (isBase : index.base = some base)
    (isUnit : index.isUnit) : words.settle ops box = words.settle ops base + index.offset := by
  unfold IndexVar.isUnit at isUnit
  rw [Bool.and_eq_true, beq_iff_eq, beq_iff_eq] at isUnit
  have value := IndexTable.value_of_undivided (tracks_settle words ordered) found isUnit.2 rfl
  rw [Const.int.inj value]
  unfold IndexVar.value IndexVar.quotient IndexVar.scaled
  rw [isBase, isUnit.1, isUnit.2, Int64.div_one]
  change words.settle ops base * 1 + index.offset = _
  rw [Int64.mul_one]

end Words

end LinearTrace
