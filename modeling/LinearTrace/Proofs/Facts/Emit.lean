import LinearTrace.Proofs.Facts.Range

/-!
# Emission keeps the facts true

An operation that goes through emission either leaves a value behind that its
result stands for, or is appended with its operands resolved.  In both cases the
facts are true of the run in which the result has been defined.
-/

namespace LinearTrace

open LinearTrace.Valuation Operation

variable {before after : Facts} {value : Value} {computes : Valuation → Option Const}

namespace Facts

open Replacements

variable {heap : Heap} {valuation : Valuation} {facts : Facts} {op : Operation} {box : Box}
  {literal : Const} {excuse : Prop}

/-- A walk that appended one operation. -/
structure Grows (before : Facts) (op : Operation) (after : Facts) : Prop where
  target : after.target = before.target
  pointers : after.pointers = before.pointers
  output : after.output = before.output.push op
  replaced : ∀ box : Box, after.replacements[box]? = none → before.replacements[box]? = none
  acyclic : Acyclic before.replacements → Acyclic after.replacements

theorem Grows.learn {before middle after : Facts} (grows : before.Grows op middle)
    (learns : middle.Learns after) : before.Grows op after :=
  ⟨learns.target.trans grows.target, learns.pointers.trans grows.pointers,
    learns.output.trans grows.output,
    fun box absent => grows.replaced box (learns.replaced box absent),
    fun acyclic => learns.acyclic (grows.acyclic acyclic)⟩

/-! ## Resolved operations -/

theorem Holds.values_resolve (holds : facts.Holds heap valuation) (args : List Value) :
    valuation.values (args.map facts.resolve) = valuation.values args := by
  unfold values
  rw [List.mapM_map]
  exact congrArg (fun read => args.mapM read) (funext holds.value_resolve)

theorem Holds.computed_resolveOperation (holds : facts.Holds heap valuation) (op : Operation) :
    (facts.resolveOperation op).computed valuation = op.computed valuation := by
  unfold Operation.computed resolveOperation
  rw [holds.values_resolve]

theorem isFinal_of_mem_resolveOperation (acyclic : Acyclic facts.replacements) (op : Operation)
    (member : value ∈ (facts.resolveOperation op).args) : IsFinal facts.replacements value := by
  obtain ⟨source, _, rfl⟩ := List.mem_map.mp member
  exact isFinal_resolve acyclic source

/-! ## Appending -/

theorem push_getElem?_of_some {output : Array Operation} {position : Nat} {found : Operation}
    (entry : output[position]? = some found) (op : Operation) :
    (output.push op)[position]? = some found := by
  obtain ⟨inside, _⟩ := Array.getElem?_eq_some_iff.mp entry
  rw [Array.getElem?_push_lt inside, ← Array.getElem?_eq_getElem inside]
  exact entry

theorem Holds.append_void (holds : facts.Holds heap valuation) (isVoid : op.result = none)
    (interval : Interval) : (facts.append op interval).Holds heap valuation := by
  unfold Facts.append
  rw [isVoid]
  refine ⟨holds.acyclic, holds.replaced, holds.bounded, holds.pointed, holds.computed, ?_⟩
  intro box position producer
  obtain ⟨producing, literal, entry, computed, boxValue⟩ := holds.produced box position producer
  exact ⟨producing, literal, push_getElem?_of_some entry op, computed, boxValue⟩

theorem grows_append_void (facts : Facts) (isVoid : op.result = none) (interval : Interval) :
    facts.Grows op (facts.append op interval) := by
  unfold Facts.append
  rw [isVoid]
  exact ⟨rfl, rfl, rfl, fun _ absent => absent, id⟩

theorem allocationFact?_eq_none (integral : op.opcode.isIntegral) : allocationFact? op = none := by
  unfold allocationFact?
  cases opcode : op.opcode with
  | new =>
    rw [opcode] at integral
    cases integral
  | newWithVtable =>
    rw [opcode] at integral
    cases integral
  | _ => rfl

theorem grows_append (facts : Facts) (integral : op.opcode.isIntegral)
    (interval : Interval) : facts.Grows op (facts.append op interval) := by
  unfold Facts.append
  cases result : op.result with
  | none => exact ⟨rfl, rfl, rfl, fun _ absent => absent, id⟩
  | some box =>
    refine ⟨rfl, ?_, rfl, fun _ absent => absent, id⟩
    dsimp only [learnResult]
    rw [allocationFact?_eq_none integral]

/-- What is learned from an appended operation is true once its result is defined. -/
theorem Holds.append (holds : facts.Holds heap valuation) (integral : op.opcode.isIntegral)
    (result : op.result = some box) (fresh : valuation box = none)
    (computed : op.computed valuation = some literal) {interval : Interval}
    (covers : interval.Covers literal) :
    (facts.append op interval).Holds heap (valuation.define box literal) := by
  have above := extends_define fresh literal
  have boxValue := define_self valuation box literal
  have extended := holds.extend above
  have recomputed := computed_of_extends above computed
  unfold Facts.append
  rw [result]
  refine ⟨extended.acyclic, extended.replaced, ?_, ?_, ?_, ?_⟩
  · dsimp only [learnResult]
    split
    · exact extended.bounded
    rename_i bounded
    cases literal with
    | int word => exact bounded_insert extended.bounded boxValue covers
    | float value =>
      cases covers
      exact absurd rfl bounded
    | ref address =>
      cases covers
      exact absurd rfl bounded
  · dsimp only [learnResult]
    rw [allocationFact?_eq_none integral]
    exact extended.pointed
  · dsimp only [learnResult]
    split
    · exact extended.computed.record ⟨literal, recomputed, boxValue⟩
    · exact extended.computed
  · intro other position producer
    dsimp only [learnResult] at producer
    rcases eq_or_getElem?_of_insert producer with ⟨rfl, rfl⟩ | ⟨_, producer⟩
    · exact ⟨op, literal, Array.getElem?_push_size, recomputed, boxValue⟩
    · obtain ⟨producing, produced, entry, producedValue, otherValue⟩ :=
        extended.produced other position producer
      exact ⟨producing, produced, push_getElem?_of_some entry op, producedValue, otherValue⟩

/-! ## What becomes of an operation -/

/-- An emission says the truth about the value that an operation computes. -/
def SoundEmission (heap : Heap) (facts : Facts) (op : Operation) (box : Box) : Emission → Prop
  | .constant result value => result = box ∧ ∀ valuation literal, facts.Holds heap valuation →
      op.computed valuation = some literal → literal = value
  | .reuse result value => result = box ∧ ∀ valuation literal, facts.Holds heap valuation →
      op.computed valuation = some literal → valuation.value value = some literal
  | .append interval => ∀ valuation literal, facts.Holds heap valuation →
      op.computed valuation = some literal → interval.Covers literal

theorem values_of_constants {args : List Value} {literals : List Const}
    (constants : args.mapM Value.const? = some literals) (valuation : Valuation) :
    valuation.values args = some literals := by
  have agree : ∀ value literal, value.const? = some literal →
      valuation.value (id value) = some literal := by
    intro value literal isConst
    rw [Value.eq_const_of_const? isConst]
    rfl
  have carried := mapM_of_forall id agree constants
  rwa [List.map_id] at carried

theorem computed_of_fold? (folded : fold? op = some literal) (valuation : Valuation) :
    op.computed valuation = some literal := by
  obtain ⟨literals, constants, evaluated⟩ := Option.bind_eq_some_iff.mp folded
  rw [computed, values_of_constants constants]
  exact evaluated

theorem sound_of_reuse? {emission : Emission} (found : facts.reuse? op box = some emission) :
    SoundEmission heap facts op box emission := by
  unfold reuse? at found
  split at found
  · split at found
    next literal folded =>
      cases found
      refine ⟨rfl, fun valuation computed _ isComputed => ?_⟩
      rw [computed_of_fold? folded] at isComputed
      exact (Option.some.inj isComputed).symm
    · obtain ⟨value, known, rfl⟩ := Option.map_eq_some_iff.mp found
      refine ⟨rfl, fun valuation computed holds isComputed => ?_⟩
      obtain ⟨literal, evaluated, valueIs⟩ := holds.computed _ _ _ known
      rw [Operation.computed, evaluated] at isComputed
      rw [valueIs, isComputed]
  · cases found

theorem ensuresValue_resultInterval (facts : Facts) (op : Operation) {post : Interval → Prop}
    (each : ∀ interval, facts.resultInterval op = .ok interval → post interval) :
    EnsuresValue excuse (facts.resultInterval op) post := by
  have argument : ∀ position, EnsuresValue excuse (facts.argInterval op position) fun _ => True :=
    fun position => (ensuresValue_arg fun _ _ => trivial).bind fun _ _ => trivial
  have binary : ∀ transfer, EnsuresValue excuse (facts.binaryInterval op transfer) fun _ => True :=
    fun transfer => (argument 0).bind fun _ _ => (argument 1).bind fun _ _ => trivial
  have unary : ∀ transfer, EnsuresValue excuse (facts.unaryInterval op transfer) fun _ => True :=
    fun transfer => (argument 0).bind fun _ _ => trivial
  have harmless : EnsuresValue excuse (facts.resultInterval op) fun _ => True := by
    unfold resultInterval
    cases op.opcode with
    | intSub | intXor =>
      dsimp only
      split
      · exact trivial
      · exact binary _
    | intAdd | intMul | intAnd | intOr | intLeftShift | intRightShift | uintRightShift
    | intFloorDiv | intMod | intSignExtend | intLt | intLe | intGt | intGe | intEq | intNe
    | uintLt | uintLe | uintGt | uintGe => exact binary _
    | intNeg | intIsTrue | intIsZero => exact unary _
    | getArrayItemGc | getArrayItemRaw | rawLoad =>
      dsimp only
      split
      · split <;> exact trivial
      · exact trivial
    | _ => exact trivial
  cases found : facts.resultInterval op with
  | ok interval => exact each interval found
  | error fault =>
    rw [found] at harmless
    exact harmless

theorem sound_emission (heap : Heap) (facts : Facts) (op : Operation)
    (result : op.result = some box) :
    EnsuresValue excuse (facts.emission op) (SoundEmission heap facts op box) := by
  unfold emission
  rw [result]
  dsimp only
  split
  next emission found => exact sound_of_reuse? found
  split
  · refine .bind (ensuresValue_resultInterval facts op fun _ found => found) ?_
    intro interval found
    have covers : ∀ valuation literal, facts.Holds heap valuation →
        op.computed valuation = some literal → interval.Covers literal := by
      intro valuation literal holds computed
      have ensured : EnsuresValue False (facts.resultInterval op) (·.Covers literal) :=
        holds.resultInterval computed
      rw [found] at ensured
      exact ensured
    split
    next word _ single =>
      exact ⟨rfl, fun valuation literal holds computed =>
        Interval.eq_of_covers_constant (covers valuation literal holds computed) single⟩
    · exact covers
  · exact fun valuation literal _ _ => Interval.covers_unbounded literal

/-! ## Defining a box -/

/-- A step after which a box stands for the value that it should have. -/
structure Replaces (heap : Heap) (before after : Facts) (box : Box)
    (computes : Valuation → Option Const) : Prop where
  learns : before.Learns after
  sound : ∀ valuation literal, before.Holds heap valuation → valuation box = none →
    computes valuation = some literal →
      after.Holds heap (valuation.define box literal) ∧ after.replacements[box]? ≠ none

/-- A step that appends an operation which gives a box the value that it should have. -/
structure Appends (heap : Heap) (before : Facts) (op : Operation) (after : Facts) (box : Box)
    (computes : Valuation → Option Const) : Prop where
  result : op.result = some box
  integral : op.opcode.isIntegral = true
  grows : before.Grows op after
  sound : ∀ valuation literal, before.Holds heap valuation → valuation box = none →
    computes valuation = some literal →
      after.Holds heap (valuation.define box literal) ∧ op.computed valuation = some literal ∧
        ∀ value ∈ op.args, IsFinal before.replacements value

/-- A step that defines a box, in the one way or the other. -/
def Defines (heap : Heap) (before after : Facts) (box : Box)
    (computes : Valuation → Option Const) : Prop :=
  Replaces heap before after box computes ∨
    ∃ op, Appends heap before op after box computes

theorem Defines.weaken {other : Valuation → Option Const}
    (defines : Defines heap before after box computes)
    (agree : ∀ valuation literal, before.Holds heap valuation → other valuation = some literal →
      computes valuation = some literal) : Defines heap before after box other := by
  rcases defines with ⟨learns, sound⟩ | ⟨op, result, integral, grows, sound⟩
  · exact .inl ⟨learns, fun valuation literal holds fresh isComputed =>
      sound valuation literal holds fresh (agree valuation literal holds isComputed)⟩
  · exact .inr ⟨op, result, integral, grows, fun valuation literal holds fresh isComputed =>
      sound valuation literal holds fresh (agree valuation literal holds isComputed)⟩

theorem replaces_makeConstant (sound : ∀ valuation computed, facts.Holds heap valuation →
      computes valuation = some computed → computed = literal) :
    Replaces heap facts (facts.makeConstant (.box box) literal) box computes := by
  refine ⟨learns_makeConstant facts _ literal, fun valuation computed holds fresh isComputed => ?_⟩
  obtain rfl := sound valuation computed holds isComputed
  have extended := holds.extend (extends_define fresh computed)
  exact ⟨extended.makeConstant (define_self valuation box computed),
    holds.replaced_makeConstant fresh computed⟩

theorem replaces_makeEqual (sound : ∀ valuation computed, facts.Holds heap valuation →
      computes valuation = some computed → valuation.value value = some computed) :
    Replaces heap facts (facts.makeEqual box value) box computes := by
  refine ⟨learns_makeEqual facts box value, fun valuation computed holds fresh isComputed => ?_⟩
  have valueIs := sound valuation computed holds isComputed
  have above := extends_define fresh computed
  exact ⟨(holds.extend above).makeEqual (define_self valuation box computed)
    (above.value valueIs), holds.replaced_makeEqual fresh valueIs⟩

/-- Emission gives an operation's result the value that the operation computes. -/
theorem emit_defines (heap : Heap) (facts : Facts) (integral : op.opcode.isIntegral)
    (result : op.result = some box) :
    Ensures excuse (emit op) facts fun appended after =>
      (appended = false ∧ Replaces heap facts after box op.computed) ∨ (appended = true ∧
          Appends heap facts (facts.resolveOperation op) after box op.computed) := by
  refine .bind_get (Ensures.bind_lift ?_)
  refine (sound_emission heap facts (facts.resolveOperation op) result).weaken
    fun emission sound => ?_
  have resolved : ∀ {valuation : Valuation} {literal : Const}, facts.Holds heap valuation →
      op.computed valuation = some literal →
        (facts.resolveOperation op).computed valuation = some literal := by
    intro valuation literal holds computed
    rw [holds.computed_resolveOperation, computed]
  cases emission with
  | constant box value =>
    obtain ⟨rfl, sound⟩ := sound
    exact .inl ⟨rfl, replaces_makeConstant fun valuation computed holds isComputed =>
      sound valuation computed holds (resolved holds isComputed)⟩
  | reuse box value =>
    obtain ⟨rfl, sound⟩ := sound
    exact .inl ⟨rfl, replaces_makeEqual fun valuation computed holds isComputed =>
      sound valuation computed holds (resolved holds isComputed)⟩
  | append interval =>
    have stays : (facts.resolveOperation op).opcode.isIntegral = true := integral
    have defines : (facts.resolveOperation op).result = some box := result
    refine .inr ⟨rfl, defines, stays, grows_append facts stays interval, ?_⟩
    intro valuation literal holds fresh computed
    have computed := resolved holds computed
    exact ⟨holds.append stays defines fresh computed (sound valuation literal holds computed),
      computed, fun value => isFinal_of_mem_resolveOperation holds.acyclic op⟩

theorem emit_void (facts : Facts) (isVoid : op.result = none) : emit op facts =
      .ok true (facts.append (facts.resolveOperation op) .unbounded) := by
  have appends : facts.emission (facts.resolveOperation op) = .ok (.append .unbounded) := by
    unfold emission resolveOperation
    rw [isVoid]
  change (liftM (facts.emission (facts.resolveOperation op)) >>= _ : FactsM Bool) facts = _
  rw [appends]
  rfl

/-- The reverse forms of an operation that was just appended are true as well. -/
theorem recordReverseOfLast_appends (appends : Appends heap before op facts box computes) :
    Ensures excuse recordReverseOfLast facts fun _ after =>
      Appends heap before op after box computes := by
  have last : facts.output.back? = some op := by
    rw [appends.grows.output]
    exact Array.back?_push
  refine .bind_get ?_
  rw [last]
  refine .bind_lift ?_
  refine (KnownResults.ensuresValue_recordReverse facts.known
    (KnownResults.noFloat_of_isIntegral appends.integral) appends.result).weaken fun recorded implied => ?_
  refine ⟨appends.result, appends.integral,
    appends.grows.learn ⟨rfl, rfl, rfl, fun _ absent => absent, id⟩, ?_⟩
  intro valuation literal holds fresh isComputed
  obtain ⟨after, computed, final⟩ := appends.sound valuation literal holds fresh isComputed
  have recomputed :=
    computed_of_extends (extends_define fresh literal) computed
  refine ⟨⟨after.acyclic, after.replaced, after.bounded, after.pointed, ?_, after.produced⟩,
    computed, final⟩
  exact implied _ literal after.computed recomputed (define_self valuation box literal)

end Facts

end LinearTrace
