import LinearTrace.Interval
import LinearTrace.Operation

/-!
# Faults

Three things stop work on a trace. A contradiction: the trace says that
something always fails, so it is to be thrown away. A rejection: a loop is left
as it is because it cannot be vectorized. An abort: the trace is malformed and
the run ends.
-/

namespace LinearTrace

inductive Contradiction where
  /-- No word of the interval lies between the two limits. -/
  | emptyNarrowing (interval : Interval) (lower upper : Int64)
  /-- A word of the interval would have to be below the least word. -/
  | belowLeast (interval : Interval)
  /-- A word of the interval would have to be above the greatest word. -/
  | aboveGreatest (interval : Interval)
  | guardFails (guard : Operation)
  | nullAfterNonnull
  | valueOfOtherClass
  | isNullFails
  | nonnullFails
  | isObjectOfNull
  | isObjectOfConstantFails
  | isObjectFails
  | gcTypeFails
  | subclassFails
  | nonnullClassFails
  | exactClassConflict
  /-- A reason given by a pass from outside. -/
  | other (reason : String)
  deriving DecidableEq, Repr

namespace Contradiction

def narrowingText (interval : Interval) (limit : String) : String :=
  "integer bound " ++ interval.text ++ " narrowed to nothing by " ++ limit

def text : Contradiction → String
  | .emptyNarrowing interval lower upper =>
    narrowingText interval
      ("[" ++ toString lower.toInt ++ ", " ++ toString upper.toInt ++ "]")
  | .belowLeast interval => narrowingText interval "< i64::MIN"
  | .aboveGreatest interval => narrowingText interval "> i64::MAX"
  | .guardFails guard => guard.text ++ " was proven to always fail"
  | .nullAfterNonnull => "guard_value(..., NULL) follows a guard that it is not NULL"
  | .valueOfOtherClass => "guard_value(..., const) follows guard_class(..., other class)"
  | .isNullFails => "a guard_isnull was proven to always fail"
  | .nonnullFails => "a guard_nonnull was proven to always fail"
  | .isObjectOfNull => "a guard_is_object(NULL) found"
  | .isObjectOfConstantFails => "a guard_is_object(const) was proven to always fail"
  | .isObjectFails => "a guard_is_object on a known non-object was proven to always fail"
  | .gcTypeFails => "a guard_gc_type was proven to always fail"
  | .subclassFails => "a guard_subclass(const) was proven to always fail"
  | .nonnullClassFails => "a guard_nonnull_class was proven to always fail"
  | .exactClassConflict => "record_exact_class conflicts with the known class"
  | .other reason => reason

end Contradiction

/-- Why a loop is left scalar. -/
inductive Rejection where
  | notALoop
  | disabled
  | noVectorRegisters
  | noArrayAccess
  | unrollTooLarge (count : Nat)
  | noPacks
  | cyclicPacks
  | impureGuard
  deriving DecidableEq, Repr

def Rejection.text : Rejection → String
  | .notALoop => "trace is not a loop"
  | .disabled => "vectorization is disabled"
  | .noVectorRegisters => "target has no vector registers"
  | .noArrayAccess => "loop has no sized array access"
  | .unrollTooLarge count =>
    "unroll count " ++ toString count ++ " exceeds the configured maximum"
  | .noPacks => "no packs could be formed"
  | .cyclicPacks => "packs form a dependency cycle"
  | .impureGuard => "a guard resuming at the loop header depends on an impure operation"

/-- Why a run ends. -/
inductive Abort where
  | missingOperand
  | outOfRange
  | overflow
  | needsResultType (opcode : Opcode)
  | hasNoResult (opcode : Opcode)
  | noVectorForm (opcode : Opcode)
  | noOperandShape (opcode : Opcode)
  | schedulerStuck (remaining : Nat)
  deriving DecidableEq, Repr

def Abort.text? : Abort → Option String
  | .missingOperand | .outOfRange | .overflow => none
  | .needsResultType opcode => some (opcode.name ++ " needs an explicit result type")
  | .hasNoResult opcode => some (opcode.name ++ " has no result")
  | .noVectorForm opcode => some (opcode.name ++ " has no vector form")
  | .noOperandShape opcode => some ("no operand shape for " ++ opcode.name)
  | .schedulerStuck remaining =>
    some ("scheduler stuck: " ++ toString remaining ++ " nodes left and none is ready")

/-- Anything that stops work on a trace. -/
inductive Fault where
  | contradiction (cause : Contradiction)
  | rejection (cause : Rejection)
  | abort (cause : Abort)
  deriving DecidableEq, Repr

def Fault.text? : Fault → Option String
  | .contradiction cause => some ("invalid loop: " ++ cause.text)
  | .rejection cause => some ("not vectorizable: " ++ cause.text)
  | .abort cause => cause.text?

/-- Work on a state that keeps the state it reached when it faults. -/
abbrev Work (σ : Type) := EStateM Fault σ

namespace Work

/-- Pass on the fault of a computation without state. -/
def ofExcept {σ α : Type} : Except Fault α → Work σ α
  | .ok value => pure value
  | .error fault => throw fault

instance {σ : Type} : MonadLift (Except Fault) (Work σ) where
  monadLift := ofExcept

def contradict {σ α : Type} (cause : Contradiction) : Work σ α :=
  throw (.contradiction cause)

def reject {σ α : Type} (cause : Rejection) : Work σ α :=
  throw (.rejection cause)

end Work

def Operation.arg (op : Operation) (position : Nat) : Except Fault Value :=
  match op.args[position]? with
  | some value => .ok value
  | none => .error (.abort .missingOperand)

end LinearTrace
