import LinearTrace.Proofs.Evaluate
import LinearTrace.Proofs.Snapshot

/-!
# Scoped traces

Every box is defined once, by the label or by one operation, and before it is
read.  In a run of such a trace exactly the boxes defined so far have values.
-/

namespace LinearTrace

open List Option Operation

variable {value : Value} {opcode : Opcode} {frame : List Value}

variable {ops : List Operation} {position : Nat}

/-- The boxes that are defined before the operation at a position. -/
def definedBefore (ops : List Operation) (position : Nat) : List Box :=
  (match ops with
    | label :: _ => label.argBoxes
    | [] => []) ++ (ops.take position).filterMap Operation.result

/-- The operation reads only boxes that are defined and defines a new one, if any. -/
def Operation.ScopedIn (op : Operation) (defined : List Box) : Prop :=
  (∀ value ∈ op.uses, ∀ box ∈ value.box?, box ∈ defined) ∧ ∀ box ∈ op.result, box ∉ defined

instance (op : Operation) (defined : List Box) : Decidable (op.ScopedIn defined) :=
  inferInstanceAs (Decidable (_ ∧ _))

def Scoped (ops : List Operation) : Prop :=
  ∀ entry ∈ ops.zipIdx, entry.1.ScopedIn (definedBefore ops entry.2)

instance (ops : List Operation) : Decidable (Scoped ops) :=
  inferInstanceAs (Decidable (∀ entry ∈ ops.zipIdx, _))

/-- The result is still to be defined. -/
def Operation.FreshIn (op : Operation) (valuation : Valuation) : Prop :=
  ∀ box, op.result = some box → valuation box = none

theorem Scoped.scopedIn (inScope : Scoped ops) {op : Operation} (found : ops[position]? = some op) :
    op.ScopedIn (definedBefore ops position) :=
  inScope (op, position) (mem_zipIdx_iff_getElem?.mpr found)

theorem Operation.mem_failArgs_of_frame {op : Operation} (isFrame : frame ∈ op.frames)
    (member : value ∈ frame) : value ∈ op.failArgs := by
  unfold frames at isFrame
  unfold failArgs
  cases found : op.snapshot with
  | none =>
    rw [found] at isFrame
    cases isFrame
  | some snapshot =>
    rw [found] at isFrame
    change value ∈ snapshot.values
    rw [snapshot.values_eq_flatten]
    exact mem_flatten_of_mem isFrame member

theorem Operation.mem_uses_of_frame {op : Operation} (isFrame : frame ∈ op.frames)
    (member : value ∈ frame) : value ∈ op.uses :=
  mem_append_right _ (op.mem_failArgs_of_frame isFrame member)

/-! ## Values -/

variable {heap : Heap} {valuation next : Valuation} {op : Operation} {box : Box}

theorem Opcode.resultClass_of_isGuard (isGuard : opcode.isGuard) : opcode.resultClass = .void := by
  revert isGuard
  cases opcode <;> first | exact fun _ => rfl | exact nofun

theorem Opcode.plain_of_isIntegral (integral : opcode.isIntegral) :
    opcode.isGuard = false ∧ opcode ≠ .label ∧ opcode ≠ .jump ∧ opcode ≠ .recordExactClass := by
  revert integral
  cases opcode <;> decide

theorem Operation.execute_value (integral : op.opcode.isIntegral)
    (result : op.result = some box) (heap : Heap) (valuation : Valuation) :
    op.execute heap valuation =
      (op.computed valuation).map fun literal => .next (valuation.define box literal) := by
  obtain ⟨notGuard, notLabel, notJump, notClaim⟩ := Opcode.plain_of_isIntegral integral
  unfold execute
  rw [if_neg (by rw [isGuard, notGuard]; exact Bool.false_ne_true), result]
  split
  · exact absurd ‹_› notLabel
  · exact absurd ‹_› notJump
  · exact absurd ‹_› notClaim
  · cases op.computed valuation <;> rfl

theorem Operation.cases_execute_next (executed : op.execute heap valuation = some (.next next)) :
    (next = valuation ∧ op.opcode.isIntegral = false) ∨
      ∃ box literal, op.result = some box ∧ next = valuation.define box literal := by
  have plain : ∀ integral : op.opcode.isIntegral = true, _ :=
    fun integral => Opcode.plain_of_isIntegral integral
  by_cases isGuard : op.isGuard = true
  · have notIntegral : op.opcode.isIntegral = false := by
      refine Bool.eq_false_iff.mpr fun integral => ?_
      rw [Operation.isGuard, (plain integral).1] at isGuard
      cases isGuard
    rcases op.cases_execute_guard isGuard executed with ⟨_, same⟩ | ⟨_, _, _, leaves⟩
    · cases same
      exact .inl ⟨rfl, notIntegral⟩
    · cases leaves
  unfold execute at executed
  rw [if_neg isGuard] at executed
  split at executed
  next opcode =>
    cases executed
    exact .inl ⟨rfl, Bool.eq_false_iff.mpr fun integral => (plain integral).2.1 opcode⟩
  · obtain ⟨_, _, isJump⟩ := map_eq_some_iff.mp executed
    cases isJump
  next opcode =>
    obtain ⟨holds, _, executed⟩ := bind_eq_some_iff.mp executed
    cases holds with
    | false => cases executed
    | true =>
      cases executed
      exact .inl ⟨rfl, Bool.eq_false_iff.mpr fun integral => (plain integral).2.2.2 opcode⟩
  · obtain ⟨box, result, executed⟩ := bind_eq_some_iff.mp executed
    obtain ⟨literal, _, executed⟩ := bind_eq_some_iff.mp executed
    cases executed
    exact .inr ⟨box, literal, result, rfl⟩

/-- Only operations on words and comparisons of references have results. -/
def ResultsAreIntegral (ops : List Operation) : Prop :=
  ∀ op ∈ ops, op.result ≠ none → op.opcode.isIntegral = true

theorem definedBefore_succ (found : ops[position]? = some op) :
    definedBefore ops (position + 1) = definedBefore ops position ++ op.result.toList := by
  unfold definedBefore
  rw [take_add_one, found, filterMap_append, ← append_assoc]
  cases result : op.result <;> simp [result]

theorem Operation.mem_argBoxes : box ∈ op.argBoxes ↔ .box box ∈ op.args := by
  unfold argBoxes
  rw [mem_filterMap]
  constructor
  · rintro ⟨value, member, isBox⟩
    cases value with
    | const literal => cases isBox
    | box other =>
      cases isBox
      exact member
  · exact fun member => ⟨.box box, member, rfl⟩

theorem ne_none_iff_mem_definedBefore (results : ResultsAreIntegral ops)
    {inputs : Box → Const} (inside : position ≤ ops.length)
    (runs : runFrom heap (entry ops inputs) (ops.take position) = some (.running valuation)) :
    valuation box ≠ none ↔ box ∈ definedBefore ops position := by
  induction position generalizing valuation with
  | zero =>
    rw [take_zero] at runs
    cases runs
    unfold definedBefore entry
    cases ops with
    | nil => simp
    | cons label rest =>
      rw [take_zero, filterMap_nil, append_nil, mem_argBoxes]
      simp
  | succ position ih =>
    obtain ⟨op, found⟩ : ∃ op, ops[position]? = some op := ⟨_, getElem?_eq_getElem inside⟩
    rw [runFrom_take_succ found] at runs
    obtain ⟨progress, ran, advanced⟩ := bind_eq_some_iff.mp runs
    obtain ⟨previous, rfl, executed⟩ := Progress.running_of_advance advanced
    have before := ih (Nat.le_of_lt inside) ran
    rw [definedBefore_succ found, mem_append, ← before, mem_toList]
    rcases op.cases_execute_next executed with ⟨rfl, notIntegral⟩ | ⟨other, literal, result, rfl⟩
    · have isVoid : op.result = none := by
        refine Decidable.byContradiction fun isResult => ?_
        rw [results op (mem_of_getElem? found) isResult] at notIntegral
        cases notIntegral
      simp [isVoid]
    · rw [result]
      by_cases same : box = other
      · subst same
        simp [Valuation.define_self]
      · simp [Valuation.define_of_ne same, Ne.symm same]

theorem Valuation.mapM_defined {α β : Type} {read : α → Option β} {items : List α}
    (defined : ∀ item ∈ items, ∃ result, read item = some result) :
    ∃ results, items.mapM read = some results := by
  induction items with
  | nil => exact ⟨[], rfl⟩
  | cons item rest ih =>
    obtain ⟨first, isFirst⟩ := defined item mem_cons_self
    obtain ⟨others, areOthers⟩ :=
      ih fun other member => defined other (mem_cons_of_mem _ member)
    exact ⟨first :: others, by rw [mapM_cons, isFirst, areOthers]; rfl⟩

section

variable {ops : List Operation} {inputs : Box → Const} {position : Nat}

variable (inScope : Scoped ops) (results : ResultsAreIntegral ops)
  (found : ops[position]? = some op)
  (runs : runFrom heap (entry ops inputs) (ops.take position) = some (.running valuation))

include inScope results found runs

theorem Scoped.freshIn : op.FreshIn valuation := by
  intro box result
  obtain ⟨inside, _⟩ := List.getElem?_eq_some_iff.mp found
  refine Decidable.byContradiction fun defined => ?_
  exact (inScope.scopedIn found).2 box result
    ((ne_none_iff_mem_definedBefore results (Nat.le_of_lt inside) runs).mp defined)

theorem Scoped.value_of_uses (member : value ∈ op.uses) :
    ∃ literal, valuation.value value = some literal := by
  obtain ⟨inside, _⟩ := List.getElem?_eq_some_iff.mp found
  cases value with
  | const literal => exact ⟨literal, rfl⟩
  | box box =>
    have defined := (inScope.scopedIn found).1 _ member box rfl
    rw [← ne_none_iff_mem_definedBefore results (Nat.le_of_lt inside) runs] at defined
    exact ne_none_iff_exists'.mp defined

theorem Scoped.values_args : ∃ literals, valuation.values op.args = some literals :=
  Valuation.mapM_defined fun _ member =>
    inScope.value_of_uses results found runs (mem_append_left _ member)

theorem Scoped.values_frames : ∃ frames, valuation.frames op.frames = some frames :=
  Valuation.mapM_defined fun _ isFrame => Valuation.mapM_defined fun _ member =>
    inScope.value_of_uses results found runs (mem_uses_of_frame isFrame member)

end

end LinearTrace
