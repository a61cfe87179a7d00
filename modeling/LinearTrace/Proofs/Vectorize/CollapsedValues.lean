import LinearTrace.Proofs.Vectorize.CollapsedGuards

/-!
# Collapsing guards keeps every value

What collapsing leaves out are guards and comparisons that nothing reads any more.  Whatever is
kept computes the word that it computed before, although sums may start from another box, and it
reads the words that it read before, in its snapshot as well.
-/

namespace LinearTrace

open List Words

variable {ops kept : List Operation} {op : Operation} {box : Box} {free : List Box} {count : Nat}

/-! ## Collapsing ends -/

/-- The operands that collapsing looks at are there. -/
def Operation.HasOperands (op : Operation) : Prop :=
  (op.opcode.isOrder = true → 2 ≤ op.args.length) ∧
    (op.opcode = .guardTrue ∨ op.opcode = .guardFalse → 1 ≤ op.args.length)

instance (op : Operation) : Decidable op.HasOperands :=
  inferInstanceAs (Decidable (_ ∧ _))

theorem Operation.exists_arg (op : Operation) (position : Nat) (inside : position < op.args.length)
    : ∃ value, op.arg position = .ok value := by
  unfold Operation.arg
  rw [getElem?_eq_getElem inside]
  exact ⟨_, rfl⟩

theorem Comparison.exists_table (enough : ∀ op ∈ ops, op.HasOperands) :
    ∃ comparisons, Comparison.table ops = .ok comparisons := by
  unfold Comparison.table
  generalize (∅ : Std.HashMap Box Comparison) = start
  induction ops generalizing start with
  | nil => exact ⟨start, rfl⟩
  | cons op rest ih =>
    rw [foldlM_cons]
    have enoughRest := fun other isOther => enough other (mem_cons_of_mem op isOther)
    cases isOrder : op.opcode.isOrder with
    | false => exact ih enoughRest start
    | true =>
      have two := (enough op mem_cons_self).1 isOrder
      obtain ⟨left, isLeft⟩ := op.exists_arg 0 (by omega)
      obtain ⟨right, isRight⟩ := op.exists_arg 1 (by omega)
      cases op.result with
      | none => exact ih enoughRest start
      | some result =>
        rw [isLeft, isRight]
        exact ih enoughRest _

namespace GuardCollapse

theorem exists_scan_eq_ok (indices : IndexTable) (comparisons : Std.HashMap Box Comparison)
    (position : Nat) (state : GuardCollapse) (enough : ∀ op ∈ ops, op.HasOperands) :
    ∃ final, scan indices comparisons position ops state = .ok final := by
  induction ops generalizing position state with
  | nil => exact ⟨state, rfl⟩
  | cons op rest ih =>
    have checked : ∃ condition, IndexCondition.ofGuard indices comparisons op = .ok condition := by
      unfold IndexCondition.ofGuard
      dsimp only
      split
      next isGuard =>
        have one := (enough op mem_cons_self).2 (by simpa using (Bool.and_eq_true_iff.mp isGuard).2)
        obtain ⟨value, isArg⟩ := op.exists_arg 0 one
        rw [isArg]
        exact ⟨_, rfl⟩
      · exact ⟨none, rfl⟩
    obtain ⟨condition, isCondition⟩ := checked
    unfold scan
    rw [isCondition]
    exact ih _ _ fun other isOther => enough other (mem_cons_of_mem op isOther)

theorem exists_collapse (enough : ∀ op ∈ ops, op.HasOperands) :
    ∃ kept count, collapse ops = .ok (kept, count) := by
  obtain ⟨comparisons, isTable⟩ := Comparison.exists_table enough
  obtain ⟨state, scanned⟩ := exists_scan_eq_ok (.ofOperations ops) comparisons 0 {} enough
  exact ⟨_, _, Fault.bind_eq_ok.mpr ⟨_, isTable, Fault.bind_eq_ok.mpr ⟨_, scanned, rfl⟩⟩⟩

/-! ## Values -/

section

variable {keep : Operation × Nat → Bool} {words : Words} (inScope : ScopedFrom free ops)
  (mayKeep : MayKeep keep ops)

include inScope mayKeep

theorem settle_keepBy_of_result (isOp : op ∈ keepBy keep ops ops.zipIdx)
    (isResult : op.result = some box) :
    words.settle (keepBy keep ops ops.zipIdx) box = words.settle ops box := by
  have ordered := isOrdered_of_scopedFrom inScope
  rw [settle_of_result words (isOrdered_keepBy inScope) isOp isResult,
    word?_congr fun _ isArg => settle_keepBy inScope mayKeep isOp isArg]
  obtain ⟨entry, isEntry, _, rfl⟩ := mem_keepBy.mp isOp
  have member := fst_mem_of_mem_zipIdx isEntry
  rw [result_adapt] at isResult
  rw [word?_adapt ordered member, settle_of_result words ordered member isResult]

theorem settle_keepBy_of_use (guards : ∀ op ∈ ops, op.isGuard → op.result = none)
    (isOp : op ∈ keepBy keep ops ops.zipIdx) (isUse : .box box ∈ op.uses) :
    words.settle (keepBy keep ops ops.zipIdx) box = words.settle ops box := by
  by_cases made : ∃ maker ∈ keepBy keep ops ops.zipIdx, maker.result = some box
  · obtain ⟨maker, isMaker, isResult⟩ := made
    exact settle_keepBy_of_result inScope mayKeep isMaker isResult
  have notMade : ∀ maker ∈ keepBy keep ops ops.zipIdx, maker.result ≠ some box :=
    fun maker isMaker isResult => made ⟨maker, isMaker, isResult⟩
  rw [settle_of_not_result notMade]
  refine (settle_of_not_result fun maker isMaker isResult => ?_).symm
  have isGuard := isGuard_of_unmade mayKeep isOp isUse notMade isMaker isResult
  cases (guards maker isMaker isGuard).symm.trans isResult

end

/-- Operations with their operands are collapsed.  What is left out are guards and comparisons
whose results nothing reads that is kept; every result and everything that is read, also in a
snapshot, is as before; and every box is still defined once and before it is read. -/
theorem keepsValues_of_collapse (inScope : ScopedFrom free ops)
    (guards : ∀ op ∈ ops, op.isGuard = true → op.result = none) :
    ((∀ op ∈ ops, op.HasOperands) → ∃ kept count, collapse ops = .ok (kept, count)) ∧
      ∀ kept count, collapse ops = .ok (kept, count) →
        ∃ keep : Operation × Nat → Bool,
          kept = (ops.zipIdx.filter keep).map (fun entry => adapt (.ofOperations ops) entry.1) ∧
          (∀ entry ∈ ops.zipIdx, keep entry = false → entry.1.isGuard = true ∨
            entry.1.opcode.isOrder = true ∧ ∃ box, entry.1.result = some box ∧
              ∀ op ∈ kept, .box box ∉ op.uses) ∧
          (∀ words : Words, ∀ op ∈ kept, ∀ box, op.result = some box ∨ .box box ∈ op.uses →
            words.settle kept box = words.settle ops box) ∧
          ScopedFrom free kept := by
  refine ⟨exists_collapse, fun kept count collapsed => ?_⟩
  obtain ⟨comparisons, state, keep, isTable, scanned, rfl, leaves⟩ := exists_scan collapsed
  have mayKeep := leaves.mayKeep scanned
  have ordered := Words.isOrdered_of_scopedFrom inScope
  refine ⟨keep, rfl, fun entry isEntry isGone => ?_, fun words op isOp box => ?_, ?_⟩
  · rcases leaves entry isEntry isGone with
      isDropped | ⟨box, isResult, ⟨guard, isGuard, isDropped, reads⟩, unread⟩
    · left
      obtain ⟨_, _, _, ⟨op, found, checked⟩, _⟩ := exists_stronger scanned isDropped
      rw [mem_zipIdx_iff_getElem?.mp isEntry] at found
      cases found
      exact isGuard_of_ofGuard checked
    · obtain ⟨maker, isMaker, makes, isOrder⟩ :=
        exists_order_of_dropped isTable scanned isGuard isDropped reads
      cases ordered.eq_of_result isMaker (fst_mem_of_mem_zipIdx isEntry) makes isResult
      refine Or.inr ⟨isOrder, box, isResult, fun op isOp isUse => ?_⟩
      obtain ⟨other, isOther, isKept, rfl⟩ := mem_keepBy.mp isOp
      exact unread other isOther isKept isUse
  · rintro (isResult | isUse)
    · exact settle_keepBy_of_result inScope mayKeep isOp isResult
    · exact settle_keepBy_of_use inScope mayKeep guards isOp isUse
  · exact mayKeep.scopedFrom guards inScope

end GuardCollapse

open IndexGuards in
/-- The sum that started from another sum starts from the index, and has the same value. -/
theorem keepsValues_of_sums :
    (∀ op ∈ sums, op.isGuard → op.result = none) ∧ ScopedFrom [index, bound] keptSums ∧
      ∀ words : Words, words.settle keptSums ⟨4, .int⟩ = words.settle sums ⟨4, .int⟩ := by
  have guards : ∀ op ∈ sums, op.isGuard = true → op.result = none := by decide
  obtain ⟨_, _, _, values, inScope⟩ :=
    (GuardCollapse.keepsValues_of_collapse scopedFrom_sums guards).2 _ _ collapse_sums
  exact ⟨guards, inScope, fun words =>
    values words (withWord .intAdd index 2 4) (by decide) _ (Or.inl rfl)⟩

open IndexGuards in
/-- A guard is dropped though it defines the box that the loop goes on with. -/
theorem not_scopedFrom_of_checkedSums : ScopedFrom [index, bound] (checkedSums (some ⟨6, .int⟩)) ∧
    GuardCollapse.collapse (checkedSums (some ⟨6, .int⟩)) =
      .ok (keptCheckedSums (some ⟨6, .int⟩), 1) ∧
    (∃ op ∈ keptCheckedSums (some ⟨6, .int⟩), .box ⟨6, .int⟩ ∈ op.uses) ∧
    ¬ ScopedFrom [index, bound] (keptCheckedSums (some ⟨6, .int⟩)) := by
  refine ⟨?_, collapse_checkedSums (.inr rfl), by decide, ?_⟩
  · exact (scoped_iff_scopedFrom label _).mp (by decide)
  · exact fun inScope => absurd ((scoped_iff_scopedFrom label _).mpr inScope) (by decide)

end LinearTrace
