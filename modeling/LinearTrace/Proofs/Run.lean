import LinearTrace.Opcode.Evaluate
import LinearTrace.Target
import LinearTrace.Trace

/-!
# Running a trace

A run of a trace keeps the values of the boxes defined so far.  A pure operation
defines its result, a guard that fails leaves the trace with the frames of its
snapshot, and a jump hands its operands on.  Claims about classes are promises:
a run that breaks one is undefined, like a run that divides by zero.
-/

namespace LinearTrace

open List Option

variable {box : Box} {literal : Const} {address vtable : UInt64} {operands : List Value}
  {literals : List Const}

theorem eq_or_getElem?_of_insert {κ ν : Type} [BEq κ] [Hashable κ] [LawfulBEq κ]
    {table : Std.HashMap κ ν} {key other : κ} {value found : ν}
    (entry : (table.insert key value)[other]? = some found) :
    key = other ∧ value = found ∨ key ≠ other ∧ table[other]? = some found := by
  rw [Std.HashMap.getElem?_insert] at entry
  split at entry
  next same => exact .inl ⟨eq_of_beq same, some.inj entry⟩
  next different => exact .inr ⟨fun same => different (beq_iff_eq.mpr same), entry⟩

theorem Value.eq_const_of_const? {value : Value} (isConst : value.const? = some literal) :
    value = .const literal := by
  cases value with
  | box box => cases isConst
  | const known =>
    cases isConst
    rfl

theorem Value.exists_box_of_not_isConst {value : Value} (notConst : ¬ value.isConst = true) :
    ∃ box, value = .box box := by
  cases value with
  | box box => exact ⟨box, rfl⟩
  | const literal => exact absurd rfl notConst

/-! ## Valuations -/

/-- The values of the boxes that are defined. -/
abbrev Valuation := Box → Option Const

namespace Valuation

variable {valuation larger smaller : Valuation}

def value (valuation : Valuation) : Value → Option Const
  | .box box => valuation box
  | .const literal => some literal

def values (valuation : Valuation) (operands : List Value) : Option (List Const) :=
  operands.mapM valuation.value

/-- The values of several frames. -/
def frames (valuation : Valuation) (frames : List (List Value)) : Option (List (List Const)) :=
  frames.mapM valuation.values

/-- The valuation with one more box. -/
def define (valuation : Valuation) (box : Box) (literal : Const) : Valuation :=
  fun other => if other = box then some literal else valuation other

/-- Every box of the smaller valuation has its value in the larger one. -/
def Extends (larger smaller : Valuation) : Prop :=
  ∀ box literal, smaller box = some literal → larger box = some literal

@[simp] theorem value_box (valuation : Valuation) (box : Box) :
    valuation.value (.box box) = valuation box := rfl

theorem define_self (valuation : Valuation) (box : Box) (literal : Const) :
    valuation.define box literal box = some literal :=
  if_pos rfl

theorem define_of_ne {other : Box} (apart : other ≠ box) :
    valuation.define box literal other = valuation other :=
  if_neg apart

theorem Extends.refl (valuation : Valuation) : valuation.Extends valuation :=
  fun _ _ defined => defined

theorem Extends.trans {largest smallest : Valuation} (upper : largest.Extends larger)
    (lower : larger.Extends smallest) : largest.Extends smallest :=
  fun box literal defined => upper box literal (lower box literal defined)

theorem extends_define (fresh : valuation box = none) (literal : Const) :
    (valuation.define box literal).Extends valuation := by
  intro other value defined
  rw [define_of_ne, defined]
  rintro rfl
  rw [fresh] at defined
  cases defined

theorem Extends.define (above : larger.Extends smaller) (box : Box) (literal : Const) :
    (larger.define box literal).Extends (smaller.define box literal) := by
  intro other value defined
  by_cases same : other = box
  · subst same
    rw [define_self] at defined ⊢
    exact defined
  · rw [define_of_ne same] at defined ⊢
    exact above other value defined

theorem mapM_of_forall {α β γ : Type} {first : α → Option γ} {second : β → Option γ} (onto : α → β)
    (agree : ∀ item result, first item = some result → second (onto item) = some result)
    {items : List α} {results : List γ} (mapped : items.mapM first = some results) :
    (items.map onto).mapM second = some results := by
  induction items generalizing results with
  | nil => exact mapped
  | cons item rest ih =>
    rw [mapM_cons] at mapped
    obtain ⟨head, headEq, mapped⟩ := bind_eq_some_iff.mp mapped
    obtain ⟨tail, tailEq, mapped⟩ := bind_eq_some_iff.mp mapped
    rw [map_cons, mapM_cons, agree item head headEq, ih tailEq]
    exact mapped

section

variable (onto : Value → Value) (agree : ∀ operand literal, larger.value operand = some literal →
  smaller.value (onto operand) = some literal)

include onto agree

theorem values_map (defined : larger.values operands = some literals) :
    smaller.values (operands.map onto) = some literals :=
  mapM_of_forall onto agree defined

theorem frames_map {frames : List (List Value)}
    {literals : List (List Const)} (defined : larger.frames frames = some literals) :
    smaller.frames (frames.map (List.map onto)) = some literals :=
  mapM_of_forall (List.map onto) (fun _ _ => values_map onto agree) defined

end

theorem Extends.value (above : larger.Extends smaller) {operand : Value}
    (defined : smaller.value operand = some literal) : larger.value operand = some literal := by
  cases operand with
  | box box => exact above box literal defined
  | const known => exact defined

theorem Extends.values (above : larger.Extends smaller)
    (defined : smaller.values operands = some literals) :
    larger.values operands = some literals := by
  have carried := values_map id (fun _ _ => above.value) defined
  rwa [List.map_id] at carried

theorem values_getElem? (defined : valuation.values operands = some literals) (position : Nat) :
    literals[position]? = (operands[position]?).bind valuation.value := by
  induction operands generalizing literals position with
  | nil =>
    cases defined
    rfl
  | cons operand rest ih =>
    unfold values at defined
    rw [mapM_cons] at defined
    obtain ⟨head, headEq, defined⟩ := bind_eq_some_iff.mp defined
    obtain ⟨tail, tailEq, defined⟩ := bind_eq_some_iff.mp defined
    cases defined
    cases position with
    | zero => exact headEq.symm
    | succ position => exact ih tailEq position

theorem values_pair_eq_some {left right : Value} : valuation.values [left, right] = some literals ↔
      ∃ x y, literals = [x, y] ∧ valuation.value left = some x ∧
        valuation.value right = some y := by
  cases leftValue : valuation.value left <;> cases rightValue : valuation.value right <;>
    simp [values, leftValue, rightValue, eq_comm]

end Valuation

/-! ## Heaps -/

/-- What a run can ask about the objects that references point to. -/
structure Heap where
  /-- The class of an instance. -/
  classOf : UInt64 → Option UInt64
  /-- The collector's type number. -/
  typeIdOf : UInt64 → Option Nat
  /-- The range of subclass numbers of a class. -/
  subclassRange : UInt64 → Option (Int64 × Int64)
  /-- The null reference has no class. -/
  classOf_null : classOf 0 = none

def Heap.empty : Heap where
  classOf _ := none
  typeIdOf _ := none
  subclassRange _ := none
  classOf_null := rfl

/-- A class is `expected` or a subclass of it. -/
def Heap.isSubclass (heap : Heap) (vtable expected : UInt64) : Bool :=
  match heap.subclassRange vtable, heap.subclassRange expected with
  | some (least, _), some (lower, upper) => decide (lower ≤ least ∧ least ≤ upper)
  | _, _ => false

/-- Every object and class that the target lists is in the heap as it is listed. -/
structure Target.Describes (target : Target) (heap : Heap) : Prop where
  classOf : ∀ {address vtable : UInt64}, target.classOf? address = some vtable →
    heap.classOf address = some vtable
  typeIdOf : ∀ {address : UInt64} {typeId : Nat}, target.typeIdOf? address = some typeId →
    heap.typeIdOf address = some typeId
  classes : ∀ {vtable : UInt64} {range : Int64 × Int64},
    target.subclassRange? vtable = some range → heap.subclassRange vtable = some range

theorem Target.Describes.isSubclass {target : Target} {heap : Heap}
    (describes : target.Describes heap) {expected : UInt64} {verdict : Bool}
    (listed : target.isSubclass? vtable expected = some verdict) :
    heap.isSubclass vtable expected = verdict := by
  obtain ⟨range, found, listed⟩ := bind_eq_some_iff.mp listed
  obtain ⟨expectedRange, expectedFound, listed⟩ := bind_eq_some_iff.mp listed
  rw [Heap.isSubclass, describes.classes found, describes.classes expectedFound]
  exact some.inj listed

/-! ## Checks -/

namespace Opcode

/-- A question about the first operand, a reference. -/
def onReference (args : List Const) (question : UInt64 → Option Bool) : Option Bool := do
  question (← (← args[0]?).ref?)

/-- The second operand as an address. -/
def addressArg (args : List Const) : Option UInt64 := do
  (← args[1]?).address?

/-- Whether a guard passes, or a claim about a class is true, on the given operands. -/
def check (heap : Heap) (opcode : Opcode) (args : List Const) : Option Bool :=
  match opcode with
  | .guardTrue => args[0]?.map (· == .int 1)
  | .guardFalse => args[0]?.map (· == .int 0)
  | .guardValue => do return (← args[0]?) == (← args[1]?)
  | .guardIsNull => onReference args fun address => some (address == 0)
  | .guardNonnull => onReference args fun address => some (address != 0)
  | .guardIsObject => onReference args fun address => some (heap.classOf address).isSome
  | .guardGcType => onReference args fun address => do
      let expected ← wordAt args 1
      return (heap.typeIdOf address).map Int.ofNat == some expected.toInt
  | .guardClass | .guardNonnullClass | .recordExactClass => onReference args fun address => do
      let expected ← addressArg args
      return heap.classOf address == some expected
  | .guardSubclass => onReference args fun address => do
      let expected ← addressArg args
      return (heap.classOf address).any (heap.isSubclass · expected)
  | _ => none

end Opcode

namespace Operation

def computed (op : Operation) (valuation : Valuation) : Option Const :=
  (valuation.values op.args).bind op.opcode.evaluate

/-- Whether the operation's check succeeds. -/
def checked (op : Operation) (heap : Heap) (valuation : Valuation) : Option Bool :=
  (valuation.values op.args).bind (op.opcode.check heap)

/-- The frames of the snapshot, innermost first. -/
def frames (op : Operation) : List (List Value) :=
  match op.snapshot with
  | some snapshot => snapshot.frames
  | none => []

end Operation

/-! ## Runs -/

/-- What one operation does. -/
inductive Effect where
  /-- The run goes on. -/
  | next (valuation : Valuation)
  /-- The guard fails and leaves the trace with the values of its frames. -/
  | leave (frames : List (List Const))
  /-- The run reached a jump. -/
  | jump (args : List Const)

def Operation.execute (heap : Heap) (op : Operation) (valuation : Valuation) : Option Effect :=
  if op.isGuard then do
    if ← op.checked heap valuation then return .next valuation
    else return .leave (← valuation.frames op.frames)
  else
    match op.opcode with
    | .label => some (.next valuation)
    | .jump => (valuation.values op.args).map .jump
    | .recordExactClass => do
        if ← op.checked heap valuation then return .next valuation else none
    | _ => do
        return .next (valuation.define (← op.result) (← op.computed valuation))

section

variable {heap : Heap} {valuation : Valuation} {op : Operation}

theorem Operation.execute_guard (isGuard : op.isGuard) (heap : Heap) (valuation : Valuation) :
    op.execute heap valuation = (op.checked heap valuation).bind fun passes =>
      if passes then some (.next valuation) else (valuation.frames op.frames).map .leave := by
  unfold Operation.execute
  rw [if_pos isGuard]
  cases op.checked heap valuation with
  | none => rfl
  | some passes =>
    cases passes with
    | true => rfl
    | false => cases valuation.frames op.frames <;> rfl

theorem Operation.execute_label (opcode : op.opcode = .label) (heap : Heap)
    (valuation : Valuation) : op.execute heap valuation = some (.next valuation) := by
  unfold execute isGuard
  rw [opcode]
  rfl

theorem Operation.execute_jump (opcode : op.opcode = .jump) (heap : Heap) (valuation : Valuation) :
    op.execute heap valuation = (valuation.values op.args).map .jump := by
  unfold execute isGuard
  rw [opcode]
  rfl

theorem Operation.execute_claim (opcode : op.opcode = .recordExactClass) (heap : Heap)
    (valuation : Valuation) :
    op.execute heap valuation = (op.checked heap valuation).bind fun holds =>
      if holds then some (.next valuation) else none := by
  unfold execute isGuard
  rw [opcode]
  rfl

theorem Operation.execute_of_checked (isGuard : op.isGuard)
    (passes : op.checked heap valuation = some true) :
    op.execute heap valuation = some (.next valuation) := by
  rw [op.execute_guard isGuard, passes]
  rfl

theorem Operation.execute_of_failed (isGuard : op.isGuard)
    (fails : op.checked heap valuation = some false) {frames : List (List Const)}
    (defined : valuation.frames op.frames = some frames) :
    op.execute heap valuation = some (.leave frames) := by
  rw [op.execute_guard isGuard, fails, bind_some, if_neg Bool.false_ne_true, defined]
  rfl

/-- A guard passes and goes on as before, or fails and leaves. -/
theorem Operation.cases_execute_guard (isGuard : op.isGuard) {effect : Effect}
    (executed : op.execute heap valuation = some effect) :
    (op.checked heap valuation = some true ∧ effect = .next valuation) ∨
      ∃ frames, op.checked heap valuation = some false ∧
        valuation.frames op.frames = some frames ∧ effect = .leave frames := by
  rw [op.execute_guard isGuard] at executed
  obtain ⟨passes, checked, executed⟩ := bind_eq_some_iff.mp executed
  cases passes with
  | true => exact .inl ⟨checked, (some.inj executed).symm⟩
  | false =>
    obtain ⟨frames, defined, rfl⟩ := map_eq_some_iff.mp executed
    exact .inr ⟨frames, checked, defined, rfl⟩

theorem Operation.isGuard_of_leave {frames : List (List Const)}
    (leaves : op.execute heap valuation = some (.leave frames)) : op.isGuard := by
  refine Decidable.byContradiction fun notGuard => ?_
  unfold Operation.execute at leaves
  rw [if_neg notGuard] at leaves
  split at leaves
  · cases leaves
  · obtain ⟨_, _, isJump⟩ := map_eq_some_iff.mp leaves
    cases isJump
  · obtain ⟨holds, _, leaves⟩ := bind_eq_some_iff.mp leaves
    cases holds <;> cases leaves
  · obtain ⟨_, _, leaves⟩ := bind_eq_some_iff.mp leaves
    obtain ⟨_, _, leaves⟩ := bind_eq_some_iff.mp leaves
    cases leaves

end

/-- How far a run has come. -/
inductive Progress where
  | running (valuation : Valuation)
  /-- The guard at the position failed. -/
  | left (position : Nat) (frames : List (List Const))
  | jumped (args : List Const)

/-- Where a run is after an operation at a position had its effect. -/
def Effect.progress (position : Nat) : Effect → Progress
  | .next valuation => .running valuation
  | .leave frames => .left position frames
  | .jump args => .jumped args

/-- Progress by the operation at a position. -/
def Progress.advance (heap : Heap) (position : Nat) (op : Operation) : Progress → Option Progress
  | .running valuation => (op.execute heap valuation).map (Effect.progress position)
  | ended => some ended

/-- A run that is still going on has executed every operation so far. -/
theorem Progress.running_of_advance {heap : Heap} {position : Nat} {op : Operation}
    {progress : Progress} {next : Valuation}
    (advanced : progress.advance heap position op = some (.running next)) :
    ∃ valuation, progress = .running valuation ∧ op.execute heap valuation = some (.next next) := by
  cases progress with
  | running valuation =>
    obtain ⟨effect, executed, isRunning⟩ := map_eq_some_iff.mp advanced
    cases effect with
    | next valuation =>
      cases isRunning
      exact ⟨_, rfl, executed⟩
    | leave frames => cases isRunning
    | jump args => cases isRunning
  | left position frames => cases advanced
  | jumped args => cases advanced

/-- Run a list of operations, the first of which stands at position zero. -/
def runFrom (heap : Heap) (start : Valuation) (ops : List Operation) : Option Progress :=
  ops.zipIdx.foldlM (fun progress (op, position) => progress.advance heap position op)
    (.running start)

/-- The valuation at the start of a trace: the boxes of its label hold the inputs. -/
def entry (ops : List Operation) (inputs : Box → Const) : Valuation := fun box =>
  match ops with
  | label :: _ => if .box box ∈ label.args then some (inputs box) else none
  | [] => none

def run (heap : Heap) (ops : List Operation) (inputs : Box → Const) : Option Progress :=
  runFrom heap (entry ops inputs) ops

/-- Progress by operations of which the first stands at a position. -/
def Progress.resume (heap : Heap) (position : Nat) (ops : List Operation) (progress : Progress) :
    Option Progress :=
  (ops.zipIdx position).foldlM (fun progress (op, position) => progress.advance heap position op)
    progress

theorem Progress.resume_cons (heap : Heap) (position : Nat) (op : Operation)
    (rest : List Operation) (progress : Progress) :
    progress.resume heap position (op :: rest) =
      (progress.advance heap position op).bind (Progress.resume heap (position + 1) rest) := rfl

theorem Progress.resume_left (heap : Heap) (position : Nat) (ops : List Operation) (left : Nat)
    (frames : List (List Const)) :
    (Progress.left left frames).resume heap position ops = some (.left left frames) := by
  induction ops generalizing position with
  | nil => rfl
  | cons op rest ih =>
    rw [resume_cons]
    exact ih (position + 1)

theorem runFrom_append (heap : Heap) (start : Valuation) (front rest : List Operation) :
    runFrom heap start (front ++ rest) =
      (runFrom heap start front).bind (Progress.resume heap front.length rest) := by
  simp only [runFrom, zipIdx_append, foldlM_append, Nat.zero_add]
  rfl

theorem runFrom_concat (heap : Heap) (start : Valuation) (ops : List Operation) (op : Operation) :
    runFrom heap start (ops ++ [op]) =
      (runFrom heap start ops).bind (Progress.advance heap ops.length op) := by
  rw [runFrom_append]
  refine congrArg _ (funext fun progress => ?_)
  rw [Progress.resume_cons]
  exact bind_fun_some _

section

variable {heap : Heap} {start valuation : Valuation} {ops : List Operation} {op : Operation}
  {position : Nat}

theorem runFrom_take_succ (found : ops[position]? = some op) :
    runFrom heap start (ops.take (position + 1)) =
      (runFrom heap start (ops.take position)).bind (Progress.advance heap position op) := by
  obtain ⟨inside, _⟩ := List.getElem?_eq_some_iff.mp found
  rw [take_add_one, found]
  change runFrom heap start (ops.take position ++ [op]) = _
  rw [runFrom_concat, length_take_of_le (Nat.le_of_lt inside)]

theorem runFrom_of_take_left {left : Nat} {frames : List (List Const)}
    (ran : runFrom heap start (ops.take position) = some (.left left frames)) :
    runFrom heap start ops = some (.left left frames) := by
  rw [← take_append_drop position ops, runFrom_append, ran]
  exact Progress.resume_left heap _ _ left frames

/-- The guard at a position that a run reaches passes, or the run leaves there. -/
theorem runFrom_guard {progress : Progress} (ran : runFrom heap start ops = some progress)
    (found : ops[position]? = some op) (isGuard : op.isGuard)
    (reached : runFrom heap start (ops.take position) = some (.running valuation)) :
    op.checked heap valuation = some true ∨ ∃ frames, op.checked heap valuation = some false ∧
        valuation.frames op.frames = some frames ∧ progress = .left position frames := by
  have advanced : runFrom heap start (ops.take (position + 1)) =
      (op.execute heap valuation).map (Effect.progress position) := by
    rw [runFrom_take_succ found, reached]
    rfl
  -- The operation is executed on the way to the progress, so it has an effect.
  obtain ⟨effect, executed⟩ : ∃ effect, op.execute heap valuation = some effect := by
    cases executed : op.execute heap valuation with
    | some effect => exact ⟨effect, rfl⟩
    | none =>
      rw [executed] at advanced
      rw [← take_append_drop (position + 1) ops, runFrom_append, advanced] at ran
      cases ran
  rcases op.cases_execute_guard isGuard executed with ⟨passes, _⟩ | ⟨frames, fails, defined, rfl⟩
  · exact .inl passes
  · rw [executed] at advanced
    cases ran.symm.trans (runFrom_of_take_left advanced)
    exact .inr ⟨frames, fails, defined, rfl⟩

/-- Putting an operation in the place of one that does the same changes no run. -/
theorem runFrom_set {other : Operation} (found : ops[position]? = some op)
    (reached : runFrom heap start (ops.take position) = some (.running valuation))
    (same : other.execute heap valuation = op.execute heap valuation) :
    runFrom heap start (ops.set position other) = runFrom heap start ops := by
  obtain ⟨inside, isOp⟩ := List.getElem?_eq_some_iff.mp found
  have split : ops = ops.take position ++ op :: ops.drop (position + 1) := by
    rw [← isOp, ← drop_eq_getElem_cons inside, take_append_drop]
  rw [set_eq_take_append_cons_drop, if_pos inside, runFrom_append, reached]
  conv => rhs; rw [split, runFrom_append, reached]
  change ((other.execute heap valuation).map _).bind _ = ((op.execute heap valuation).map _).bind _
  rw [same]

end

end LinearTrace
