import LinearTrace.Proofs.Scope

/-!
# Scope, one operation after another

A list of operations is in scope after some boxes when the first operation is,
and the others are after those boxes and its result.
-/

namespace LinearTrace

open List Operation

variable {op : Operation} {ops front rest : List Operation} {defined other : List Box} {box : Box}

/-- Every operation is in the scope of the boxes and of the operations before it. -/
def ScopedFrom (defined : List Box) : List Operation → Prop
  | [] => True
  | op :: rest => op.ScopedIn defined ∧ ScopedFrom (defined ++ op.result.toList) rest

theorem scopedFrom_cons : ScopedFrom defined (op :: rest) ↔
      op.ScopedIn defined ∧ ScopedFrom (defined ++ op.result.toList) rest :=
  Iff.rfl

theorem Operation.filterMap_result_cons (op : Operation) (rest : List Operation) :
    (op :: rest).filterMap result = op.result.toList ++ rest.filterMap result := by
  rw [filterMap_cons]
  cases op.result <;> rfl

theorem scopedFrom_append : ScopedFrom defined (front ++ rest) ↔
      ScopedFrom defined front ∧ ScopedFrom (defined ++ front.filterMap result) rest := by
  induction front generalizing defined with
  | nil => simp [ScopedFrom]
  | cons op front ih =>
    rw [cons_append, scopedFrom_cons, ih, scopedFrom_cons, op.filterMap_result_cons,
      append_assoc, and_assoc]

theorem scopedFrom_iff_getElem? :
    ScopedFrom defined ops ↔ ∀ (position : Nat) (op : Operation), ops[position]? = some op →
      op.ScopedIn (defined ++ (ops.take position).filterMap result) := by
  induction ops generalizing defined with
  | nil => simp [ScopedFrom]
  | cons op rest ih =>
    rw [scopedFrom_cons, ih]
    constructor
    · rintro ⟨first, others⟩ position found isFound
      cases position with
      | zero =>
        cases isFound
        simpa using first
      | succ position =>
        have isScoped := others position found isFound
        rwa [append_assoc, ← op.filterMap_result_cons] at isScoped
    · intro each
      refine ⟨by simpa using each 0 op rfl, fun position found isFound => ?_⟩
      have isScoped := each (position + 1) found isFound
      rwa [take_succ_cons, op.filterMap_result_cons, ← append_assoc] at isScoped

theorem scoped_iff_scopedFrom (label : Operation) (rest : List Operation) :
    Scoped (label :: rest) ↔ ScopedFrom label.argBoxes (label :: rest) := by
  rw [scopedFrom_iff_getElem?]
  constructor
  · intro inScope position op found
    exact inScope.scopedIn found
  · rintro each ⟨op, position⟩ isEntry
    exact each position op (mem_zipIdx_iff_getElem?.mp isEntry)

/-! ## Numbers of boxes -/

/-- A value that is a box has a number below the bound. -/
def Value.IsBelow (bound : Nat) (value : Value) : Prop :=
  ∀ box ∈ value.box?, box.id < bound

instance (bound : Nat) (value : Value) : Decidable (value.IsBelow bound) :=
  inferInstanceAs (Decidable (∀ box ∈ value.box?, _))

theorem Value.mem_box? {value : Value} {box : Box} : box ∈ value.box? ↔ value = .box box := by
  cases value <;> simp [Value.box?]

/-- The supply is past every box that the operations name. -/
def BoxSupply.IsAbove (supply : BoxSupply) (ops : List Operation) : Prop :=
  ∀ op ∈ ops, (∀ value ∈ op.uses, value.IsBelow supply.next) ∧
    ∀ box ∈ op.result, box.id < supply.next

instance (supply : BoxSupply) (ops : List Operation) : Decidable (supply.IsAbove ops) :=
  inferInstanceAs (Decidable (∀ op ∈ ops, _ ∧ _))

/-- Where every defined box is below the supply, so is every box that is read. -/
theorem Scoped.isAbove {supply : BoxSupply} (inScope : Scoped ops)
    (below : ∀ box ∈ definedBefore ops ops.length, box.id < supply.next) : supply.IsAbove ops := by
  intro op isOp
  obtain ⟨position, found⟩ := mem_iff_getElem?.mp isOp
  refine ⟨fun value isUse box isBox => below box ?_, fun box isResult => below box ?_⟩
  · rcases mem_append.mp ((inScope.scopedIn found).1 value isUse box isBox) with isInput | made
    · exact mem_append_left _ isInput
    obtain ⟨maker, isBefore, result⟩ := mem_filterMap.mp made
    refine mem_append_right _ (mem_filterMap.mpr ⟨maker, ?_, result⟩)
    rw [take_length]
    exact mem_of_mem_take isBefore
  · refine mem_append_right _ (mem_filterMap.mpr ⟨op, ?_, isResult⟩)
    rw [take_length]
    exact isOp

/-! ## Loops -/

/-- A label with distinct boxes, a body, and a jump or a label that closes the loop, with every
box defined once and before it is read. -/
structure IsLoop (ops : List Operation) (label : Operation) (body : List Operation)
    (closing : Operation) : Prop where
  shape : ops = label :: (body ++ [closing])
  isLabel : label.opcode = .label
  distinct : label.argBoxes.Nodup
  closes : closing.opcode = .jump ∨ closing.opcode = .label
  inScope : Scoped ops

namespace IsLoop

variable {label closing : Operation} {body : List Operation}

/-- The boxes that are defined before the loop is closed. -/
def boxes (label : Operation) (body : List Operation) : List Box :=
  label.argBoxes ++ label.result.toList ++ body.filterMap Operation.result

section

variable (loop : IsLoop ops label body closing)

include loop

theorem scopedFrom : label.ScopedIn label.argBoxes ∧
      ScopedFrom (label.argBoxes ++ label.result.toList) body ∧
        closing.ScopedIn (boxes label body) := by
  have inScope := loop.inScope
  rw [loop.shape, scoped_iff_scopedFrom, scopedFrom_cons, scopedFrom_append] at inScope
  exact ⟨inScope.1, inScope.2.1, inScope.2.2.1⟩

theorem exists_scope (isOp : op ∈ body) :
    ∃ scope, op.ScopedIn scope ∧ ∀ box ∈ scope, box ∈ boxes label body := by
  obtain ⟨position, found⟩ := mem_iff_getElem?.mp isOp
  refine ⟨_, scopedFrom_iff_getElem?.mp loop.scopedFrom.2.1 position op found, fun box isBox => ?_⟩
  rcases mem_append.mp isBox with isInput | made
  · exact mem_append_left _ isInput
  · obtain ⟨maker, isBefore, result⟩ := mem_filterMap.mp made
    exact mem_append_right _ (mem_filterMap.mpr ⟨maker, mem_of_mem_take isBefore, result⟩)

theorem id_lt_of_mem_boxes {supply : BoxSupply}
    (above : supply.IsAbove ops) (isBox : box ∈ boxes label body) : box.id < supply.next := by
  have isLabel : label ∈ ops := by
    rw [loop.shape]
    exact mem_cons_self
  rcases mem_append.mp isBox with isInput | made
  · rcases mem_append.mp isInput with isArg | isResult
    · exact (above label isLabel).1 (.box box) (mem_append_left _ (mem_argBoxes.mp isArg)) box rfl
    · exact (above label isLabel).2 box (Option.mem_toList.mp isResult)
  · obtain ⟨maker, isOp, result⟩ := mem_filterMap.mp made
    refine (above maker ?_).2 box result
    rw [loop.shape]
    exact mem_cons_of_mem _ (mem_append_left _ isOp)

end

end IsLoop

/-! ## Tidy loops -/

/-- The operation defines a box only where its code gives a value, only a guard has a snapshot, and
one that resumes at the header of the loop names boxes of the header only. -/
structure Operation.IsTidy (header : List Box) (op : Operation) : Prop where
  void : op.opcode.resultClass = .void → op.result = none
  unguarded : op.isGuard = false → op.snapshot = none
  atHeader : op.exitsEarly = true ∨ op.opcode = .guardEarlyExit →
    ∀ box, .box box ∈ op.failArgs → box ∈ header

instance (header : List Box) (op : Operation) : Decidable (op.IsTidy header) :=
  decidable_of_iff
    ((op.opcode.resultClass = .void → op.result = none) ∧
      (op.isGuard = false → op.snapshot = none) ∧
      (op.exitsEarly = true ∨ op.opcode = .guardEarlyExit →
        ∀ value ∈ op.failArgs, ∀ box ∈ value.box?, box ∈ header))
    ⟨fun ⟨void, unguarded, atHeader⟩ =>
        ⟨void, unguarded, fun early box isBox => atHeader early (.box box) isBox box rfl⟩,
      fun ⟨void, unguarded, atHeader⟩ =>
        ⟨void, unguarded, fun early _ isArg _ isBox =>
          atHeader early _ (Value.mem_box?.mp isBox ▸ isArg)⟩⟩

theorem Operation.IsTidy.failArgs_eq_nil {header : List Box} {op : Operation}
    (tidy : op.IsTidy header) (noGuard : op.isGuard = false) : op.failArgs = [] := by
  unfold failArgs
  rw [tidy.unguarded noGuard]

/-- A loop of tidy operations that name boxes below the supply only. -/
structure IsTidyLoop (ops : List Operation) (label : Operation) (body : List Operation)
    (closing : Operation) (supply : BoxSupply) : Prop extends IsLoop ops label body closing where
  tidy : ∀ op ∈ ops, op.IsTidy label.argBoxes
  above : supply.IsAbove ops

end LinearTrace
