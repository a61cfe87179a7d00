import LinearTrace.Proofs.Scope.Sequence

/-!
# Scope in traces with labels anywhere

A label brings the boxes that it lists into scope, wherever it stands.  Any other operation
reads boxes that came into scope before it; no operation defines a box that is in scope.
-/

namespace LinearTrace

open List

variable {op old new : Operation} {ops front rest : List Operation} {scope : List Box} {box : Box}

namespace Operation

/-- The boxes that an operation brings into scope: those of a label, and its result. -/
def introduces (op : Operation) : List Box :=
  (if op.opcode = .label then op.argBoxes else []) ++ op.result.toList

/-- An operation other than a label reads boxes in scope only, and none defines one of them. -/
def FormedIn (scope : List Box) (op : Operation) : Prop :=
  (op.opcode ≠ .label → ∀ value ∈ op.uses, ∀ box ∈ value.box?, box ∈ scope) ∧
    ∀ box ∈ op.result, box ∉ scope

instance : Decidable (op.FormedIn scope) :=
  inferInstanceAs (Decidable (_ ∧ _))

theorem ne_label_of_isGuard (isGuard : op.isGuard) : op.opcode ≠ .label := by
  intro isLabel
  rw [Operation.isGuard, isLabel] at isGuard
  cases isGuard

theorem introduces_of_ne (noLabel : op.opcode ≠ .label) : op.introduces = op.result.toList := by
  unfold introduces
  rw [if_neg noLabel, nil_append]

theorem mem_introduces_of_result (isResult : op.result = some box) : box ∈ op.introduces :=
  mem_append_right _ (Option.mem_toList.mpr isResult)

theorem mem_introduces_of_label (isLabel : op.opcode = .label) (isArg : .box box ∈ op.args) :
    box ∈ op.introduces := by
  unfold introduces
  rw [if_pos isLabel]
  exact mem_append_left _ (mem_filterMap.mpr ⟨_, isArg, rfl⟩)

end Operation

/-- Every operation is formed in the boxes of the scope and of the operations before it. -/
def WellFormedFrom (scope : List Box) : List Operation → Prop
  | [] => True
  | op :: rest => op.FormedIn scope ∧ WellFormedFrom (scope ++ op.introduces) rest

instance decidableWellFormedFrom :
    ∀ (scope : List Box) (ops : List Operation), Decidable (WellFormedFrom scope ops)
  | _, [] => .isTrue trivial
  | scope, op :: rest =>
    have := decidableWellFormedFrom (scope ++ op.introduces) rest
    inferInstanceAs (Decidable (op.FormedIn scope ∧ _))

/-- Every box is defined at most once, and is a label's or an earlier result where it is read. -/
def WellFormed (ops : List Operation) : Prop :=
  WellFormedFrom [] ops

instance : Decidable (WellFormed ops) :=
  inferInstanceAs (Decidable (WellFormedFrom [] ops))

/-- The boxes that operations bring into scope. -/
def broughtIn (ops : List Operation) : List Box :=
  ops.flatMap Operation.introduces

/-- The operations close with a label, which like a jump lists boxes in scope only. -/
def ClosesInScope (ops : List Operation) : Prop :=
  ∃ front closing, ops = front ++ [closing] ∧ closing.opcode = .label ∧
    ∀ value ∈ closing.uses, ∀ box ∈ value.box?, box ∈ broughtIn front

theorem broughtIn_append (front rest : List Operation) :
    broughtIn (front ++ rest) = broughtIn front ++ broughtIn rest :=
  flatMap_append

theorem wellFormedFrom_append : WellFormedFrom scope (front ++ rest) ↔
      WellFormedFrom scope front ∧ WellFormedFrom (scope ++ broughtIn front) rest := by
  induction front generalizing scope with
  | nil => simp [WellFormedFrom, broughtIn]
  | cons op front ih =>
    simp only [cons_append, WellFormedFrom, broughtIn, flatMap_cons, ih, and_assoc,
      append_assoc]

theorem wellFormed_concat :
    WellFormed (ops ++ [op]) ↔ WellFormed ops ∧ op.FormedIn (broughtIn ops) := by
  unfold WellFormed
  rw [wellFormedFrom_append]
  simp [WellFormedFrom]

theorem WellFormedFrom.mem_scope (formed : WellFormedFrom scope ops) (isOp : op ∈ ops)
    (noLabel : op.opcode ≠ .label) {value : Value} (isUse : value ∈ op.uses)
    (isBox : box ∈ value.box?) : box ∈ scope ++ broughtIn ops := by
  obtain ⟨front, rest, rfl⟩ := append_of_mem isOp
  obtain ⟨_, first, _⟩ := wellFormedFrom_append.mp formed
  rw [broughtIn_append, ← append_assoc]
  exact mem_append_left _ (first.1 noLabel value isUse box isBox)

/-- An operation may be exchanged for one that brings the same boxes in and is formed wherever
the old one is. -/
theorem WellFormedFrom.set (formed : WellFormedFrom scope ops) {position : Nat}
    (found : ops[position]? = some old) (introduces : new.introduces = old.introduces)
    (formedIn : ∀ scope, old.FormedIn scope → new.FormedIn scope) :
    WellFormedFrom scope (ops.set position new) := by
  induction ops generalizing scope position with
  | nil => cases found
  | cons op rest ih =>
    cases position with
    | zero =>
      cases found
      refine ⟨formedIn scope formed.1, ?_⟩
      rw [introduces]
      exact formed.2
    | succ position => exact ⟨formed.1, ih formed.2 found⟩

theorem broughtIn_set {position : Nat} (found : ops[position]? = some old)
    (introduces : new.introduces = old.introduces) :
    broughtIn (ops.set position new) = broughtIn ops := by
  induction ops generalizing position with
  | nil => cases found
  | cons op rest ih =>
    cases position with
    | zero =>
      cases found
      rw [set_cons_zero, broughtIn, flatMap_cons, introduces]
      rfl
    | succ position =>
      rw [set_cons_succ, broughtIn, flatMap_cons]
      exact congrArg (op.introduces ++ ·) (ih found)

end LinearTrace
