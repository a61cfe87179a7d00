import LinearTrace.Vectorize
import LinearTrace.Proofs.Lowering.Pack

/-!
# What lowering emits

On the way to a vector operation, lowering packs, unpacks and spreads values; all of these are
pure operations.  Besides them a pack emits its vector form only, and an operation that stays
scalar keeps its code and its descriptor.
-/

namespace LinearTrace.Lowering

open Maintains

variable {α : Type} {allowed : Opcode → Prop} {before middle after : Lowering}

/-- Operations of the allowed codes have been appended to the output. -/
def Appends (allowed : Opcode → Prop) (before after : Lowering) : Prop :=
  ∃ more, after.output.toList = before.output.toList ++ more ∧ ∀ op ∈ more, allowed op.opcode

theorem Appends.of_eq (same : after.output = before.output) : Appends allowed before after :=
  ⟨[], by rw [same, List.append_nil], fun _ member => absurd member List.not_mem_nil⟩

theorem Appends.trans (left : Appends allowed before middle) (right : Appends allowed middle after) :
    Appends allowed before after := by
  obtain ⟨more, isMiddle, areMore⟩ := left
  obtain ⟨further, isAfter, areFurther⟩ := right
  refine ⟨more ++ further, by rw [isAfter, isMiddle, List.append_assoc], fun op member => ?_⟩
  exact (List.mem_append.mp member).elim (areMore op) (areFurther op)

/-- Unless it is stopped, the work appends operations of the allowed codes. -/
abbrev Emits (allowed : Opcode → Prop) (before : Lowering) (work : LoweringM α) : Prop :=
  Maintains (Appends allowed before) work fun _ => True

theorem Emits.of_silent {work : LoweringM α}
    (silent : ∀ lowering, Ensures True work lowering fun _ after => after.output = lowering.output) :
    Emits allowed before work :=
  fun lowering appends => (silent lowering).weaken fun _ _ same =>
    ⟨appends.trans (.of_eq same), trivial⟩

theorem emits_push {op : Operation} (isAllowed : allowed op.opcode) :
    Emits allowed before (push op) := by
  refine fun middle appends => ⟨appends.trans ⟨[op], Array.toList_push, fun other member => ?_⟩,
    trivial⟩
  rw [List.mem_singleton.mp member]
  exact isAllowed

/-! ## Vectors -/

section

variable (arePure : ∀ opcode : Opcode, opcode.isPure → allowed opcode)

include arePure

theorem emits_scalar (value : Value) : Emits allowed before (scalar value) := by
  refine fun lowering appends => Ensures.of_ran fun result after ran => ?_
  rcases scalar_eq value lowering with ⟨isScalar, _⟩ | ⟨_, _, _, _, isScalar⟩ |
    ⟨source, lane, copy, _, _, _, _, isScalar⟩ <;> cases ran.symm.trans isScalar
  · exact ⟨appends, trivial⟩
  · exact ⟨appends, trivial⟩
  refine ⟨appends.trans ⟨[unpacking lane copy], Array.toList_push, fun other member => ?_⟩, trivial⟩
  rw [List.mem_singleton.mp member]
  refine arePure _ ?_
  change lane.vector.shape.kind.unpackCode.isPure = true
  cases lane.vector.shape.kind <;> rfl

theorem emits_emitVector {opcode : Opcode} (isPure : opcode.isPure) (args : List Value)
    (shape : VectorShape) : Emits allowed before (emitVector opcode args shape) := by
  refine .bind (Emits.of_silent fun _ => rfl) fun vector _ => ?_
  exact (emits_push (arePure opcode isPure)).bind fun _ _ => pure trivial

theorem emits_packInto (vector : VectorBox) (source : Value) (lane count : Nat) :
    Emits allowed before (packInto vector source lane count) :=
  emits_emitVector arePure (by cases vector.shape.kind <;> rfl) _ _

theorem emits_lanesFrom (vector : VectorBox) (start count : Nat) :
    Emits allowed before (lanesFrom vector start count) :=
  ite (fun _ => pure trivial) fun _ =>
    emits_emitVector arePure (by cases vector.shape.kind <;> rfl) _ _

theorem emits_fill (vector : VectorBox) (lane : Nat) (values : List Value) :
    Emits allowed before (fill vector lane values) := by
  induction values generalizing vector lane with
  | nil => exact .pure trivial
  | cons value rest ih =>
    refine (emits_scalar arePure value).bind fun source _ => ?_
    exact (emits_packInto arePure vector source lane 1).bind fun packed _ => ih packed (lane + 1)

theorem emits_expand (values : List Value) (type : LaneType) :
    Emits allowed before (expand values type) := by
  refine .ite (fun _ => (emits_scalar arePure _).bind fun source _ => ?_) fun _ =>
    (emits_emitVector arePure rfl _ _).bind fun empty _ => emits_fill arePure empty 0 values
  exact emits_emitVector arePure (by split <;> rfl) _ _

theorem emits_gatherInto (vector : VectorBox) (position : Nat) (values : List (Value × Option Lane))
    : Emits allowed before (gatherInto vector position values) := by
  induction values using runs_induction generalizing vector position with
  | nil =>
    rw [gatherInto]
    exact .pure trivial
  | scalar value rest ih =>
    rw [gatherInto]
    refine (emits_scalar arePure value).bind fun source _ => ?_
    exact (emits_packInto arePure vector source position 1).bind fun packed _ => ih packed _
  | run value lane rest ih =>
    rw [gatherInto]
    refine (emits_lanesFrom arePure lane.vector lane.position _).bind fun part _ => ?_
    exact (emits_packInto arePure vector part.toValue position _).bind fun packed _ => ih packed _

theorem emits_vectorOperand (values : List Value) (type : LaneType) (allowsOffset : Bool) :
    Emits allowed before (vectorOperand values type allowsOffset) := by
  refine .bind (motive := fun _ => True) (.bind_get fun lowering _ => ?_) fun operand _ =>
    bind (motive := fun _ => True) (ite (fun _ => emits_emitVector arePure rfl _ _) fun _ =>
      pure trivial) fun _ _ => pure trivial
  dsimp only
  split
  next lane _ =>
    refine .ite (fun _ => pure trivial) fun _ => ?_
    exact (emits_lanesFrom arePure lane.vector lane.position _).bind fun _ _ => pure trivial
  · refine .ite (fun _ => ?_) fun _ => .bind (motive := fun _ => True) ?_ fun _ _ => pure trivial
    · exact (emits_expand arePure values type).bind fun _ _ => pure trivial
    · exact (emits_emitVector arePure rfl _ _).bind fun empty _ =>
        emits_gatherInto arePure empty 0 _

/-! ## Packs -/

omit arePure in
theorem emits_recordLanes (graph : DependencyGraph) (vector : VectorBox) (position : Nat)
    (members : List Nat) : Emits allowed before (recordLanes graph vector position members) := by
  refine Emits.of_silent fun lowering => ?_
  refine (ensures_recordLanes graph vector position members lowering).weaken fun _ _ holds => ?_
  obtain ⟨lanes, rfl, _⟩ := holds
  rfl

theorem emits_lowerOperand (graph : DependencyGraph) (signature : VectorSignature)
    (type : LaneType) (part : List Nat) (value : Value) (position : Nat) :
    Emits allowed before (lowerOperand graph signature type part value position) := by
  unfold lowerOperand
  split
  · refine (mapM (motive := fun _ _ => True) fun member _ => ?_).bind fun values _ => ?_
    · exact .bind_lift fun node _ => lift fun _ _ => trivial
    · exact (emits_vectorOperand arePure values _ _).bind fun _ _ => pure trivial
  · exact (emits_scalar arePure _).bind fun _ _ => pure trivial

theorem emits_lowerPart (graph : DependencyGraph) {opcode : Opcode} (isAllowed : allowed opcode)
    (signature : VectorSignature) (type : LaneType) (part : List Nat) :
    Emits allowed before (lowerPart graph opcode signature type part) := by
  refine .bind_lift fun first _ => (mapM fun entry _ =>
    emits_lowerOperand arePure graph signature type part entry.1 entry.2).bind fun operands _ => ?_
  refine .bind (motive := fun _ => True) ?_ fun result _ =>
    (emits_push isAllowed).bind fun _ _ => Emits.of_silent fun _ => rfl
  unfold lowerResult
  split
  · exact .pure trivial
  · refine .bind_lift fun shape _ => bind (Emits.of_silent fun _ => rfl) fun vector _ => ?_
    exact (emits_recordLanes graph vector 0 part).bind fun _ _ => pure trivial

theorem emits_lowerPack (graph : DependencyGraph) (pack : Pack)
    (isAllowed : ∀ opcode, (graph.op pack.first).opcode.vectorForm? = some opcode →
      allowed opcode) : Emits allowed before (lowerPack graph pack) := by
  refine .bind_get fun lowering _ => bind_lift fun node fetched => ?_
  have isNode := DependencyGraph.fetch_eq_ok fetched
  dsimp only
  split
  next opcode isForm =>
    have isForm := Target.isForm _ isForm
    rw [isNode] at isForm
    split
    · refine .bind_lift fun type _ => (forM fun part _ => ?_).bind fun _ _ => pure trivial
      exact emits_lowerPart arePure graph (isAllowed opcode isForm) _ type part
    · exact fun _ _ => trivial
  · exact fun _ _ => trivial

end

/-! ## Operations that stay scalar -/

section

variable {invariant : Lowering → Prop} {motive : Value → Value → Prop}
  (scalars : ∀ value, Maintains invariant (scalar value) (motive value))

include scalars

theorem maintains_renameWith (snapshot : Snapshot) :
    Maintains invariant (snapshot.renameWith scalar) fun _ => True := by
  induction snapshot with
  | root frame =>
    exact (mapM fun value _ => scalars value).bind fun _ _ =>
      ite (fun _ => pure trivial) fun _ => pure trivial
  | nested frame outer ih =>
    exact ih.bind fun _ _ => (mapM fun value _ => scalars value).bind fun _ _ =>
      ite (fun _ => pure trivial) fun _ => pure trivial

/-- An operation that stays scalar keeps its code, its result and its descriptor, and it maintains
what its operands maintain. -/
theorem maintains_lowerScalar (op : Operation) :
    Maintains invariant (lowerScalar op) fun lowered => lowered.opcode = op.opcode ∧
      lowered.result = op.result ∧ lowered.descriptor = op.descriptor := by
  have renamed : Maintains invariant (op.snapshot.mapM fun snapshot => do
      return (← snapshot.renameWith scalar).snapshot) fun _ => True := by
    cases op.snapshot with
    | none => exact .pure trivial
    | some snapshot =>
      refine .bind (motive := fun _ => True) ?_ fun _ _ => pure trivial
      exact (maintains_renameWith scalars snapshot).bind fun _ _ => pure trivial
  refine (mapM fun value _ => scalars value).bind fun args _ => ?_
  exact renamed.bind fun snapshot _ => pure ⟨rfl, rfl, rfl⟩

end

end LinearTrace.Lowering
