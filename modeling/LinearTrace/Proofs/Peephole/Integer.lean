import LinearTrace.Proofs.Peephole.Walk

/-!
# Traces of words

Simplifying a trace of words keeps its runs: each run of the output reaches the
jump with the same values, or leaves at the guard that was emitted for the
failing guard, with the same values of its snapshot.
-/

namespace LinearTrace

open Peephole

/-- An operation on words with a result, or a guard for a truth value or a constant. -/
def Operation.IsIntegerStep (op : Operation) : Prop :=
  (op.opcode.isIntegerOperation = true ∧ op.result ≠ none) ∨
    (op.opcode = .guardTrue ∨ op.opcode = .guardFalse ∨ op.opcode = .guardValue) ∧ op.result = none

instance (op : Operation) : Decidable op.IsIntegerStep :=
  inferInstanceAs (Decidable (_ ∨ _))

/-- A label, operations on words and guards, and a jump, with every box defined once and before
it is read.  What the label's boxes hold is up to the run. -/
structure IntegerTrace (ops : List Operation) : Prop where
  bracketed : ∃ label middle jump, Bracketed Operation.IsIntegerStep ops label middle jump
  inScope : Scoped ops

theorem Bracketed.resultsAreIntegral {member : Operation → Prop} {ops middle : List Operation}
    {label jump : Operation} (bracketed : Bracketed member ops label middle jump)
    (results : ∀ op, member op → op.result ≠ none → op.opcode.isIntegral) :
    ResultsAreIntegral ops := by
  intro op isOp result
  rw [bracketed.shape, List.mem_cons, List.mem_append, List.mem_singleton] at isOp
  rcases isOp with rfl | isMiddle | rfl
  · exact absurd bracketed.labelIsVoid result
  · exact results op (bracketed.members op isMiddle) result
  · exact absurd bracketed.jumpIsVoid result

theorem Operation.IsIntegerStep.isIntegral {op : Operation} (isStep : op.IsIntegerStep)
    (result : op.result ≠ none) : op.opcode.isIntegral := by
  rcases isStep with ⟨isInteger, _⟩ | ⟨_, isVoid⟩
  · rw [Opcode.isIntegral, isInteger, Bool.true_or]
  · exact absurd isVoid result

/-- No operation of a trace of words teaches anything about references, so nothing depends on
the target and no guard is merged. -/
theorem soundSteps_integer (heap : Heap) :
    SoundSteps heap Operation.IsIntegerStep Facts.NoPointers where
  kept before after _ pointers noPointers box := by
    rw [pointers]
    exact noPointers box
  step op walk next isStep coherent noPointers handled := by
    rcases isStep with ⟨isInteger, result⟩ | ⟨opcode, isVoid⟩
    · obtain ⟨box, result⟩ := Option.ne_none_iff_exists'.mp result
      have integral : op.opcode.isIntegral = true := by
        rw [Opcode.isIntegral, isInteger, Bool.true_or]
      have noComparison := Opcode.noComparison_of_isIntegerOperation isInteger
      obtain ⟨stepped, same⟩ := of_handle False (fun after =>
        Stepped heap op walk.facts after ∧ after.pointers = walk.facts.pointers) handled
        fun counted facts => by
          rw [← facts] at coherent ⊢
          exact step_value coherent (fun isComparison => absurd isComparison noComparison)
            integral result
      refine ⟨stepped, fun box => ?_⟩
      rw [same]
      exact noPointers box
    · exact of_handle (walk.facts.Refutes heap op) (fun after =>
        Stepped heap op walk.facts after ∧ after.NoPointers) handled fun counted facts => by
          rw [← facts] at coherent noPointers ⊢
          exact step_integerGuard coherent noPointers opcode isVoid

/-- Where the run of a trace of words is defined up to its end, so is the run of the simplified
trace, and it ends alike. -/
theorem run_simplify_of_integerTrace {target : Target} {trace output : Trace}
    {stats : PeepholeStats} (integer : IntegerTrace trace.ops)
    (simplified : trace.simplify target = .ok (output, stats)) (heap : Heap) (words : Box → Int64)
    {progress : Progress} (ran : run heap trace.ops (fun box => .int (words box)) = some progress) :
    (∃ args, progress = .jumped args ∧
      run heap output.ops (fun box => .int (words box)) = some (.jumped args)) ∨
    ∃ guard position frames, progress = .left guard frames ∧
      run heap output.ops (fun box => .int (words box)) = some (.left position frames) ∧
        trace.EmittedFor target guard position := by
  obtain ⟨label, middle, jump, bracketed⟩ := integer.bracketed
  have results := bracketed.resultsAreIntegral fun _ isStep => isStep.isIntegral
  have initial : (Facts.start target trace).NoPointers := fun _ => Std.HashMap.getElem?_empty
  rcases run_of_simplify bracketed integer.inScope results (soundSteps_integer heap) initial
    simplified ran with jumped | ⟨failed, original, position, frames, origin, rfl, outputRan, _,
      same, emitted, _⟩
  · exact Or.inl jumped
  · obtain ⟨rfl, rfl⟩ := same fun _ noPointers => noPointers
    exact Or.inr ⟨origin, position, frames, rfl, outputRan, emitted⟩

/-! ## A trace that guards the inverse of its input -/

namespace InvertedInput

def label : Operation := { opcode := .label, args := [.box ⟨0, .int⟩] }

def invert : Operation :=
  { opcode := .intInvert, args := [.box ⟨0, .int⟩], result := some ⟨1, .int⟩ }

def guard : Operation :=
  { opcode := .guardValue, args := [.box ⟨1, .int⟩, .int 5],
    snapshot := some (.root [.box ⟨0, .int⟩, .box ⟨1, .int⟩]) }

def jump : Operation := { opcode := .jump, args := [.box ⟨1, .int⟩, .box ⟨0, .int⟩] }

def trace : Trace := { ops := [label, invert, guard, jump] }

def entered (target : Target) : Facts := { target := target, output := #[label] }

def inverted (target : Target) : Facts := (entered target).append invert .unbounded

theorem emit_invert (target : Target) :
    Facts.emit invert (entered target) = .ok true (inverted target) := by
  have unknown : (entered target).reuse? invert ⟨1, .int⟩ = none := by
    change ((∅ : Std.HashMap _ Value)[(Opcode.intInvert, [Value.box ⟨0, .int⟩])]?).map _ = none
    rw [Std.HashMap.getElem?_empty]
    rfl
  have appends : (entered target).emission invert = .ok (.append .unbounded) := by
    have isResult : invert.result = some ⟨1, .int⟩ := rfl
    simp only [Facts.emission, isResult, unknown]
    rfl
  change (liftM ((entered target).emission invert) >>= _ : FactsM Bool) (entered target) = _
  rw [appends]
  rfl

theorem constant?_inverted (target : Target) :
    (inverted target).constant? ((inverted target).resolve (.box ⟨1, .int⟩)) = none := by
  change (((∅ : Std.HashMap Box Interval)[(⟨1, .int⟩ : Box)]?).bind _).map _ = none
  rw [Std.HashMap.getElem?_empty]
  rfl

theorem simplifies (target : Target) :
    ∃ output stats, trace.simplify target = .ok (output, stats) := by
  have second : countedStep invert { facts := entered target, stats := { opsIn := 1 } } =
      .ok () { facts := inverted target, stats := { opsIn := 2 } } :=
    emit_of_ok { facts := entered target, stats := { opsIn := 2 } } (emit_invert target)
  have third : countedStep guard { facts := inverted target, stats := { opsIn := 2 } } =
      .ok () { facts := ((inverted target).afterEmit guard).makeConstant (.box ⟨1, .int⟩) (.int 5),
               stats := { opsIn := 3 } } := by
    have isGuarded : guard.arg 0 = .ok (.box ⟨1, .int⟩) := rfl
    change guardConstant guard (.int 5)
      { facts := inverted target, stats := { opsIn := 3 } } = _
    simp only [guardConstant, currentFacts_bind, lift_bind isGuarded,
      constant?_inverted]
    rfl
  have first : countedStep label (.start target trace) =
      .ok () { facts := entered target, stats := { opsIn := 1 } } := rfl
  exact Trace.simplify_of_forM ((forM_of_ok first).trans
    ((forM_of_ok second).trans ((forM_of_ok third).trans rfl)))

end InvertedInput

/-- One input passes the guard, another leaves with its snapshot. -/
theorem run_simplify_of_invertedInput :
    ∃ output stats, InvertedInput.trace.simplify .sse = .ok (output, stats) ∧
      run .empty output.ops (fun _ => .int (-6)) = some (.jumped [.int 5, .int (-6)]) ∧
      ∃ position, InvertedInput.trace.EmittedFor .sse 2 position ∧
        run .empty output.ops (fun _ => .int 7) = some (.left position [[.int 7, .int (-8)]]) := by
  obtain ⟨output, stats, simplified⟩ := InvertedInput.simplifies .sse
  have integer : IntegerTrace InvertedInput.trace.ops :=
    ⟨⟨_, [_, _], _, rfl, rfl, rfl, rfl, rfl, by decide⟩, by decide⟩
  have passes : run .empty InvertedInput.trace.ops (fun _ => .int (-6)) =
      some (.jumped [.int 5, .int (-6)]) := rfl
  have fails : run .empty InvertedInput.trace.ops (fun _ => .int 7) =
      some (.left 2 [[.int 7, .int (-8)]]) := rfl
  refine ⟨output, stats, simplified, ?_, ?_⟩
  · rcases run_simplify_of_integerTrace integer simplified .empty (fun _ => -6) passes with
      ⟨args, same, ran⟩ | ⟨_, _, _, left, _⟩
    · cases same
      exact ran
    · cases left
  · rcases run_simplify_of_integerTrace integer simplified .empty (fun _ => 7) fails with
      ⟨args, jumped, _⟩ | ⟨guard, position, frames, same, ran, emitted⟩
    · cases jumped
    · cases same
      exact ⟨position, emitted, ran⟩

end LinearTrace
