import LinearTrace.Proofs.Peephole.Contribution

/-!
# Known results are warranted by the output

A result is known because an operation was emitted that has it, or that implies
it.  So every known result is true of each valuation that satisfies the emitted
operations, whatever that gives to boxes that were dropped.
-/

namespace LinearTrace

open List Option Peephole Facts KnownResults

variable {target : Target} {trace : Trace} {op : Operation} {walk : Peephole} {facts : Facts}

/-- A result of the operation has the value that the operation computes. -/
def Operation.IsSatisfied (op : Operation) (valuation : Valuation) : Prop :=
  ∀ result ∈ op.result, ∃ literal, op.computed valuation = some literal ∧
    valuation result = some literal

/-- Every known result is true where the output is satisfied. -/
def Facts.IsWarranted (facts : Facts) : Prop :=
  ∀ valuation, (∀ op ∈ facts.output, op.IsSatisfied valuation) → facts.known.Holds valuation

/-- An operation on words, a cast between words and addresses, or an end of a trace. -/
def Operation.IsWordStep (op : Operation) : Prop :=
  op.opcode.isIntegerOperation = true ∨
    op.opcode ∈ [.castPtrToInt, .castIntToPtr, .label, .jump]

namespace Facts

theorem isWarranted_start (target : Target) (trace : Trace) : (start target trace).IsWarranted := by
  intro valuation _ opcode args result found
  simp [KnownResults.lookup, start] at found

section

variable (warranted : facts.IsWarranted)

include warranted

theorem IsWarranted.makeEqual (box : Box) (value : Value) :
    (facts.makeEqual box value).IsWarranted := by
  unfold Facts.makeEqual
  dsimp only
  split <;> exact warranted

theorem IsWarranted.makeConstant (value : Value) (literal : Const) :
    (facts.makeConstant value literal).IsWarranted := by
  unfold Facts.makeConstant
  split <;> exact warranted

/-- A recorded result is the value of the operation that is appended with it. -/
theorem IsWarranted.append (op : Operation) (interval : Interval) :
    (facts.append op interval).IsWarranted := by
  intro valuation satisfied
  rw [output_append] at satisfied
  have holds := warranted valuation fun op isOp => satisfied op (Array.mem_push_of_mem _ isOp)
  unfold Facts.append
  split
  next result isResult =>
    change KnownResults.Holds (if isReusable op then _ else _) valuation
    split
    · obtain ⟨literal, computed, resultValue⟩ :=
        satisfied op Array.mem_push_self result isResult
      exact holds.record ⟨literal, computed, resultValue⟩
    · exact holds
  · exact holds

theorem IsWarranted.emit (op : Operation) :
    Ensures True (Facts.emit op) facts fun appended after => after.IsWarranted ∧
      (appended → after.output.back? = some (facts.resolveOperation op)) := by
  refine .bind_get (Ensures.bind_lift (.of_ok fun emission _ => ?_))
  cases emission with
  | constant result literal => exact ⟨warranted.makeConstant _ literal, Bool.noConfusion⟩
  | reuse result value => exact ⟨warranted.makeEqual result value, Bool.noConfusion⟩
  | append interval =>
    refine ⟨warranted.append _ interval, fun _ => ?_⟩
    change (facts.append _ interval).output.back? = _
    rw [output_append, Array.back?_push]

/-- The reverse forms of the operation emitted last are true where that is satisfied. -/
theorem IsWarranted.recordReverseOfLast
    (last : facts.output.back? = some op) (noFloat : op.opcode ∉ floatForms) :
    Ensures True recordReverseOfLast facts fun _ after => after.IsWarranted := by
  refine .bind_get ?_
  rw [last]
  cases isResult : op.result with
  | none =>
    refine .bind_lift ?_
    rw [KnownResults.recordReverse, isResult]
    exact warranted
  | some result =>
    refine .bind_lift ((ensuresValue_recordReverse facts.known noFloat isResult).weaken
      fun recorded implied valuation satisfied => ?_)
    obtain ⟨literal, computed, resultValue⟩ :=
      satisfied op (Array.mem_of_back? last) result isResult
    exact implied valuation literal (warranted valuation satisfied) computed resultValue

end

end Facts

namespace Peephole

theorem Settled.isWarranted (settled : Settled op walk facts)
    (warranted : walk.facts.IsWarranted) : facts.IsWarranted := by
  cases settled with
  | void _ _ => exact warranted
  | constant literal _ => exact warranted.makeConstant _ literal
  | equal _ _ => exact warranted.makeEqual _ _

/-- No operation but one on floats is emitted as one on floats. -/
theorem Becomes.noFloat {other : Operation} {changes : Nat} (becomes : Becomes op other changes)
    (noFloat : op.opcode ∉ .floatTrueDiv :: floatForms) : other.opcode ∉ floatForms := by
  unfold floatForms at noFloat ⊢
  cases becomes with
  | kept =>
    unfold Operation.kept
    split
    · change Opcode.call ∉ _
      decide
    · grind
  | @cheaper opcode _ _ isCheaper _ =>
    change opcode ∉ _
    unfold Opcode.IsCheaper at isCheaper
    grind

theorem Emitted.isWarranted (emitted : Emitted op walk.facts facts)
    (warranted : walk.facts.IsWarranted) (noFloat : op.opcode ∉ floatForms) :
    facts.IsWarranted := by
  cases emitted with
  | once ran => exact ((warranted.emit op).of_ok ran).1
  | reversed ran recorded =>
    obtain ⟨warranted, last⟩ := (warranted.emit op).of_ok ran
    exact (warranted.recordReverseOfLast (last rfl) noFloat).of_ok recorded

/-- A step keeps every known result true of what satisfies the output. -/
theorem warranted_step (member : op.IsWordStep) (warranted : walk.facts.IsWarranted) :
    Ensures True (step op) walk fun _ after => after.facts.IsWarranted := by
  -- None of the other rules applies to such an operation.
  obtain ⟨noGuard, noClaim, noCall, noFloat⟩ : op.isGuard = false ∧
      op.opcode ≠ .recordExactClass ∧ op.opcode ≠ .call ∧
        op.opcode ∉ .floatTrueDiv :: floatForms := by
    unfold Operation.IsWordStep at member
    unfold Operation.isGuard
    revert member
    cases op.opcode <;> decide
  refine (plainStep_step noGuard walk).weaken fun _ after stepped => ?_
  cases stepped with
  | claimed _ _ isClaim => exact absurd isClaim noClaim
  | dropped _ settled _ _ => exact settled.isWarranted warranted
  | emitted becomes _ emitted _ _ => exact emitted.isWarranted warranted (becomes.noFloat noFloat)
  | copied isCall _ _ => exact absurd isCall noCall

end Peephole

/-- Wherever a walk over operations on words and casts has come, a known result is the value of
its operation under every valuation that satisfies the operations emitted so far. -/
theorem Trace.trueEntry_of_walkTo {count : Nat} {valuation : Valuation} {opcode : Opcode}
    {args : List Value} {value : Value} (members : ∀ op ∈ trace.ops, op.IsWordStep)
    (walked : trace.walkTo target count = some walk)
    (satisfied : ∀ op ∈ walk.facts.output, op.IsSatisfied valuation)
    (found : walk.facts.known.lookup opcode args = some value) :
    TrueEntry valuation opcode args value := by
  have warranted : walk.facts.IsWarranted :=
    trace.facts_of_walkTo (isWarranted_start target trace)
      (fun op isOp _ warranted => warranted_step (members op isOp) warranted) walked
  exact warranted valuation satisfied opcode args value found

/-! ## A trace that casts an address to a word -/

namespace CastAddress

def address : Value := .box ⟨0, .ref⟩

def word : Box := ⟨1, .int⟩

def cast : Operation := { opcode := .castPtrToInt, args := [address], result := some word }

def casting : Trace := { ops := [cast] }

def appended : Facts := (Facts.start .sse casting).append cast .unbounded

def known : KnownResults := appended.known.recordAll [(.castIntToPtr, [.box word], address)]

theorem casts : countedStep cast (.start .sse casting) =
    .ok () { facts := { appended with known := known }, stats := { opsIn := 1 } } := by
  have unknown : (Facts.start .sse casting).reuse? cast word = none := by
    change ((∅ : Std.HashMap _ Value)[(Opcode.castPtrToInt, [address])]?).map _ = none
    rw [Std.HashMap.getElem?_empty]
    rfl
  have appends : (Facts.start .sse casting).emission cast = .ok (.append .unbounded) := by
    have isResult : cast.result = some word := rfl
    simp only [Facts.emission, isResult, unknown]
    rfl
  have emits : Facts.emit cast (Facts.start .sse casting) = .ok true appended := by
    change (liftM ((Facts.start .sse casting).emission cast) >>= _ : FactsM Bool) _ = _
    rw [appends]
    rfl
  change EStateM.bind (onFacts (Facts.emit cast)) _
    { facts := .start .sse casting, stats := { opsIn := 1 } } = _
  rw [EStateM.bind, onFacts_of_ok _ emits]
  rfl

end CastAddress

open CastAddress in
/-- The cast back is known to give the address. -/
theorem trueEntry_of_casting :
    ∃ walk valuation, casting.walkTo .sse 1 = some walk ∧
      (∀ op ∈ walk.facts.output, op.IsSatisfied valuation) ∧
      walk.facts.known.lookup .castIntToPtr [.box word] = some address ∧
        TrueEntry valuation .castIntToPtr [.box word] address := by
  have walked : casting.walkTo .sse 1 =
      some { facts := { appended with known := CastAddress.known }, stats := { opsIn := 1 } } := by
    change Option.bind (Peephole.handle _ cast) some = _
    rw [handle, casts]
    rfl
  have members : ∀ op ∈ casting.ops, op.IsWordStep := by
    intro op isOp
    cases mem_singleton.mp isOp
    exact Or.inr mem_cons_self
  have found : CastAddress.known.lookup .castIntToPtr [.box word] = some address := by
    change (((∅ : Std.HashMap (Opcode × List Value) Value).insertIfNew
      (.castPtrToInt, [address]) (.box word)).insertIfNew (.castIntToPtr, [.box word]) address)[
        (Opcode.castIntToPtr, [Value.box word])]? = _
    rw [Std.HashMap.getElem?_insertIfNew, if_pos]
    simp
  have satisfied : ∀ op ∈ appended.output, op.IsSatisfied fun box =>
      some (if box = word then .int 4096 else .ref 4096) := by
    intro op isOp
    cases Array.mem_singleton.mp isOp
    rintro result ⟨⟩
    exact ⟨.int 4096, rfl, rfl⟩
  exact ⟨_, _, walked, satisfied, found,
    Trace.trueEntry_of_walkTo members walked satisfied found⟩

end LinearTrace
