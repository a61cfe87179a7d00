import LinearTrace.Proofs.Vectorize.Copies

/-!
# Unrolled loops

Unrolling a loop is exact: one run of the unrolled loop does what the loop does
in as many iterations, and leaves at the copy of the guard at which the loop
leaves.  The unrolled loop again defines every box once and before it is read.
-/

namespace LinearTrace

open List Option Unrolling Operation Ending Std.HashMap

universe w x

variable {position : Nat} {value : Value} {header : List Box}

/-! ## Scope -/

namespace Unrolling

variable {bound : Nat} {originals defined : List Box} {state : Unrolling} {op : Operation}

variable {jump label : Operation} {ops body : List Operation}

/-- The boxes defined so far, when copies of operations on the original boxes are appended. -/
structure Scopes (bound : Nat) (originals : List Box) (state : Unrolling) (defined : List Box) :
    Prop where
  above : bound ≤ state.supply.next
  kept : ∀ box ∈ originals, box ∈ defined
  entries : ∀ (box : Box) (value : Value), state.renamed[box]? = some value →
    ∀ other ∈ value.box?, other ∈ defined
  below : ∀ box ∈ defined, box.id < state.supply.next
  fresh : ∀ box ∈ defined, box ∈ originals ∨ bound ≤ box.id

section

variable (scopes : Scopes bound originals state defined)

include scopes

theorem Scopes.rename (isOriginal : ∀ box ∈ value.box?, box ∈ originals) :
    ∀ box ∈ (state.rename value).box?, box ∈ defined := by
  cases value with
  | const literal => exact fun box isBox => by cases isBox
  | box source =>
    unfold rename
    dsimp only
    rw [getD_eq_getD_getElem?]
    cases entry : state.renamed[source]? with
    | none =>
      rintro box ⟨⟩
      exact scopes.kept source (isOriginal source rfl)
    | some value => exact scopes.entries source value entry

theorem Scopes.bind (source : Box) (isDefined : ∀ box ∈ value.box?, box ∈ defined) :
    Scopes bound originals { state with renamed := state.renamed.insert source value } defined := by
  refine ⟨scopes.above, scopes.kept, fun box found entry => ?_, scopes.below, scopes.fresh⟩
  rcases eq_or_getElem?_of_insert entry with ⟨_, rfl⟩ | ⟨_, entry⟩
  · exact isDefined
  · exact scopes.entries box found entry

theorem Scopes.carry (label : Operation)
    (args : ∀ value ∈ jump.args, ∀ box ∈ value.box?, box ∈ originals) :
    Scopes bound originals (state.carry label jump) defined := by
  have bindAll : ∀ (bindings : List (Box × Value)) (state : Unrolling),
      Scopes bound originals state defined →
      (∀ binding ∈ bindings, ∀ box ∈ binding.2.box?, box ∈ defined) →
      Scopes bound originals
        { state with
          renamed := bindings.foldl (fun renamed binding => renamed.insert binding.1 binding.2)
            state.renamed } defined := by
    intro bindings
    induction bindings with
    | nil => exact fun _ scopes _ => scopes
    | cons binding rest ih =>
      intro state scopes isDefined
      exact ih _ (scopes.bind binding.1 (isDefined binding mem_cons_self))
        fun other member => isDefined other (mem_cons_of_mem _ member)
  refine bindAll _ state scopes fun binding member => ?_
  obtain ⟨⟨parameter, value⟩, isPair, isBound⟩ := mem_filterMap.mp member
  obtain ⟨box, _, rfl⟩ := map_eq_some_iff.mp isBound
  exact scopes.rename (args value (of_mem_zip isPair).2)

end

theorem mem_failArgs_copy (member : value ∈ (state.copy op).1.failArgs) :
    value ∈ op.failArgs ∨ ∃ source ∈ op.failArgs, value = (state.copy op).2.rename source := by
  have snapshot : (state.copy op).1.snapshot = if op.isGuard && !op.exitsEarly then
        op.snapshot.map fun snapshot => (snapshot.rename (state.copy op).2.rename).snapshot
      else op.snapshot := rfl
  unfold failArgs at member ⊢
  rw [snapshot] at member
  split at member
  next renamed isRenamed =>
    split at isRenamed
    · obtain ⟨original, isOriginal, rfl⟩ := map_eq_some_iff.mp isRenamed
      rw [isOriginal]
      rw [Snapshot.values_rename] at member
      obtain ⟨source, isSource, rfl⟩ := List.mem_map.mp member
      exact .inr ⟨source, isSource, rfl⟩
    · rw [isRenamed]
      exact .inl member
  · cases member

section

variable (scopes : Scopes bound originals state defined)

include scopes

theorem Scopes.copy {scope : List Box}
    (inScope : op.ScopedIn scope) (within : ∀ box ∈ scope, box ∈ originals) :
    (state.copy op).1.ScopedIn defined ∧ Scopes bound originals (state.copy op).2
        (defined ++ (state.copy op).1.result.toList) := by
  have original : ∀ value ∈ op.uses, ∀ box ∈ value.box?, box ∈ originals :=
    fun value isUse box isBox => within box (inScope.1 value isUse box isBox)
  have uses : ∀ value ∈ (state.copy op).1.uses, ∀ box ∈ value.box?, box ∈ defined := by
    intro value isUse
    rcases mem_append.mp isUse with isArg | isFailArg
    · obtain ⟨source, isSource, rfl⟩ := List.mem_map.mp isArg
      exact scopes.rename (original source (mem_append_left _ isSource))
    rcases mem_failArgs_copy isFailArg with isOld | ⟨source, isSource, rfl⟩
    · exact fun box isBox =>
        scopes.kept box (original value (mem_append_right _ isOld) box isBox)
    have isUse : source ∈ op.uses := mem_append_right _ isSource
    -- A snapshot does not name the result of its own guard.
    rw [state.rename_copy op fun box isResult same => ?_]
    · exact scopes.rename (original source isUse)
    · subst same
      exact inScope.2 box isResult (inScope.1 _ isUse box rfl)
  cases result : op.result with
  | none =>
    obtain ⟨isVoid, same⟩ := state.copy_of_void result
    rw [isVoid, same, toList_none, append_nil]
    refine ⟨⟨uses, fun box isResult => ?_⟩, scopes⟩
    rw [isVoid] at isResult
    cases isResult
  | some box =>
    obtain ⟨isFresh, renewed⟩ := state.copy_of_result result
    rw [isFresh, renewed]
    refine ⟨⟨uses, fun other isResult isDefined => ?_⟩, ?_⟩
    · rw [isFresh] at isResult
      cases isResult
      exact Nat.lt_irrefl _ (scopes.below _ isDefined)
    refine ⟨Nat.le_succ_of_le scopes.above,
      fun other isOriginal => mem_append_left _ (scopes.kept other isOriginal),
      fun other value entry => ?_, fun other isDefined => ?_, fun other isDefined => ?_⟩
    · rcases eq_or_getElem?_of_insert entry with ⟨_, rfl⟩ | ⟨_, entry⟩
      · rintro renamed ⟨⟩
        exact mem_append_right _ (mem_singleton_self _)
      · exact fun renamed isBox =>
          mem_append_left _ (scopes.entries other value entry renamed isBox)
    · rcases mem_append.mp isDefined with isOld | isNew
      · exact Nat.lt_succ_of_lt (scopes.below other isOld)
      · rw [mem_singleton.mp isNew]
        exact Nat.lt_succ_self _
    · rcases mem_append.mp isDefined with isOld | isNew
      · exact scopes.fresh other isOld
      · rw [mem_singleton.mp isNew]
        exact .inr scopes.above

theorem Scopes.copyAll
    (inScope : ∀ op ∈ ops, ∃ scope, op.ScopedIn scope ∧ ∀ box ∈ scope, box ∈ originals) :
    ScopedFrom defined (state.copyAll ops).1 ∧ Scopes bound originals (state.copyAll ops).2
        (defined ++ (state.copyAll ops).1.filterMap result) := by
  induction ops generalizing state defined with
  | nil => exact ⟨trivial, by simpa [copyAll] using scopes⟩
  | cons op rest ih =>
    obtain ⟨scope, isScoped, within⟩ := inScope op mem_cons_self
    obtain ⟨first, scopes⟩ := scopes.copy isScoped within
    obtain ⟨others, scopes⟩ :=
      ih scopes fun other member => inScope other (mem_cons_of_mem _ member)
    refine ⟨⟨first, others⟩, ?_⟩
    rw [append_assoc] at scopes
    change Scopes _ _ _ (defined ++ ((state.copy op).1 ::
      ((state.copy op).2.copyAll rest).1).filterMap result)
    rw [filterMap_result_cons]
    exact scopes

theorem Scopes.iterate (label : Operation)
    (args : ∀ value ∈ jump.args, ∀ box ∈ value.box?, box ∈ originals)
    (inScope : ∀ op ∈ body, ∃ scope, op.ScopedIn scope ∧ ∀ box ∈ scope, box ∈ originals)
    (count : Nat) :
    ScopedFrom defined (iterate label jump body count state).1 ∧
      Scopes bound originals (iterate label jump body count state).2
        (defined ++ (iterate label jump body count state).1.filterMap result) := by
  induction count generalizing state defined with
  | zero => exact ⟨trivial, by simpa [iterate] using scopes⟩
  | succ count ih =>
    obtain ⟨copies, scopes⟩ := (scopes.carry label args).copyAll inScope
    obtain ⟨further, scopes⟩ := ih scopes
    constructor
    · exact scopedFrom_append.mpr ⟨copies, further⟩
    change Scopes _ _ _ (defined ++ (((state.carry label jump).copyAll body).1 ++
      (iterate label jump body count ((state.carry label jump).copyAll body).2).1).filterMap result)
    rw [filterMap_append, ← append_assoc]
    exact scopes

end

/-! ## Where the copies stand -/

theorem getElem?_copyAll (found : ops[position]? = some op) (state : Unrolling) :
    ∃ reached : Unrolling, (state.copyAll ops).1[position]? = some (reached.copy op).1 := by
  induction ops generalizing state position with
  | nil => cases found
  | cons first rest ih =>
    cases position with
    | zero =>
      cases found
      exact ⟨state, rfl⟩
    | succ position => exact ih found (state.copy first).2

theorem getElem?_iterate {iteration count : Nat}
    (within : iteration < count) (found : body[position]? = some op) (state : Unrolling) :
    ∃ reached : Unrolling, (iterate label jump body count state).1[
      iteration * body.length + position]? = some (reached.copy op).1 := by
  induction count generalizing state iteration with
  | zero => cases within
  | succ count ih =>
    let copies := (state.carry label jump).copyAll body
    have length : copies.1.length = body.length := length_copyAll ..
    change ∃ reached : Unrolling, (copies.1 ++
      (iterate label jump body count copies.2).1)[_]? = some (reached.copy op).1
    obtain ⟨inside, _⟩ := List.getElem?_eq_some_iff.mp found
    cases iteration with
    | zero =>
      rw [getElem?_append_left (by omega), Nat.zero_mul, Nat.zero_add]
      exact getElem?_copyAll found _
    | succ iteration =>
      have place : (iteration + 1) * body.length + position =
          copies.1.length + (iteration * body.length + position) := by
        rw [length, Nat.add_mul, Nat.one_mul]
        omega
      rw [place, getElem?_append_right (Nat.le_add_right _ _), Nat.add_sub_cancel_left]
      exact ih (Nat.lt_of_succ_lt_succ within) copies.2

theorem getElem?_filter_isRepeated (found : body[position]? = some op) (repeated : isRepeated op) :
    (body.filter isRepeated)[repeatedBefore body position]? = some op := by
  induction body generalizing position with
  | nil => cases found
  | cons first rest ih =>
    cases position with
    | zero =>
      cases found
      rw [filter_cons_of_pos repeated]
      rfl
    | succ position =>
      have others := ih found
      unfold repeatedBefore at others ⊢
      rw [take_succ_cons]
      cases kept : isRepeated first with
      | false =>
        rw [filter_cons_of_neg (by simp [kept]), filter_cons_of_neg (by simp [kept])]
        exact others
      | true =>
        rw [filter_cons_of_pos kept, filter_cons_of_pos kept]
        exact others

/-! ## Unrolled loops -/

theorem closingJump_args (label closing : Operation) :
    (closingJump label closing).args = closing.args := by
  unfold closingJump
  split <;> rfl

theorem closingJump_opcode {closing : Operation}
    (closes : closing.opcode = .jump ∨ closing.opcode = .label) :
    (closingJump label closing).opcode = .jump := by
  unfold closingJump
  split
  · rfl
  · exact closes.resolve_right ‹_›

/-- The loop, the copies of its body and the jump that closes it. -/
theorem unroll_eq (label : Operation) (body : List Operation) (closing : Operation) (count : Nat)
    (supply : BoxSupply) :
    let jump := closingJump label closing
    let copied := iterate label jump (body.filter isRepeated) count { supply := supply }
    unroll (label :: (body ++ [closing])) count supply =
      (label :: (body ++ copied.1 ++ [{ jump with args := jump.args.map copied.2.rename }]),
        copied.2.supply) := by
  obtain ⟨second, rest, split⟩ : ∃ second rest, body ++ [closing] = second :: rest := by
    cases body with
    | nil => exact ⟨closing, [], rfl⟩
    | cons first others => exact ⟨first, others ++ [closing], rfl⟩
  rw [split, unroll, ← split, dropLast_concat, getLastD_concat]
  rfl

section

variable {ops body : List Operation} {label closing : Operation} {supply : BoxSupply}

theorem scopes_start (loop : IsLoop ops label body closing) (above : supply.IsAbove ops) :
    Scopes supply.next (IsLoop.boxes label body) { supply := supply }
      (IsLoop.boxes label body) := by
  refine ⟨Nat.le_refl _, fun _ isBox => isBox, fun box value entry => ?_,
    fun _ => loop.id_lt_of_mem_boxes above, fun _ => .inl⟩
  rw [getElem?_empty] at entry
  cases entry

theorem Scopes.closingJump (scopes : Scopes bound originals state defined) (label : Operation)
    (inScope : closing.ScopedIn originals) (below : ∀ box ∈ closing.result, box.id < bound) :
    ({ Unrolling.closingJump label closing with
        args := (Unrolling.closingJump label closing).args.map state.rename } :
      Operation).ScopedIn defined := by
  have original : ∀ value ∈ closing.uses, ∀ box ∈ value.box?, box ∈ originals := inScope.1
  constructor
  · intro value isUse
    rcases mem_append.mp isUse with isArg | isFailArg
    · obtain ⟨source, isSource, rfl⟩ := List.mem_map.mp isArg
      rw [closingJump_args] at isSource
      exact scopes.rename (original source (mem_append_left _ isSource))
    · unfold Unrolling.closingJump at isFailArg
      split at isFailArg
      · cases isFailArg
      · exact fun box isBox =>
          scopes.kept box (original value (mem_append_right _ isFailArg) box isBox)
  · intro box isResult isDefined
    unfold Unrolling.closingJump at isResult
    split at isResult
    · cases isResult
    · rcases scopes.fresh box isDefined with isOriginal | isNew
      · exact inScope.2 box isResult isOriginal
      · exact Nat.lt_irrefl _ (Nat.lt_of_lt_of_le (below box isResult) isNew)

theorem isLoop_unroll (loop : IsLoop ops label body closing) (above : supply.IsAbove ops)
    (count : Nat) :
    let jump := Unrolling.closingJump label closing
    let copied := iterate label jump (body.filter isRepeated) count { supply := supply }
    IsLoop (unroll ops count supply).1 label (body ++ copied.1)
        { jump with args := jump.args.map copied.2.rename } ∧
      (unroll ops count supply).2.IsAbove (unroll ops count supply).1 := by
  intro jump copied
  obtain ⟨labelScoped, bodyScoped, closingScoped⟩ := loop.scopedFrom
  have isClosing : closing ∈ ops := by
    rw [loop.shape]
    exact mem_cons_of_mem _ (mem_append_right _ (mem_singleton_self _))
  have args : ∀ value ∈ jump.args, ∀ box ∈ value.box?, box ∈ IsLoop.boxes label body := by
    intro value isArg
    rw [show jump.args = closing.args from closingJump_args label closing] at isArg
    exact closingScoped.1 value (mem_append_left _ isArg)
  obtain ⟨copiesScoped, scopes⟩ := (scopes_start loop above).iterate label args
    (fun op isOp => loop.exists_scope (mem_of_mem_filter isOp)) count
  have jumpScoped := scopes.closingJump label closingScoped (above closing isClosing).2
  have unrolled := unroll_eq label body closing count supply
  rw [← loop.shape] at unrolled
  have inScope : Scoped (unroll ops count supply).1 := by
    rw [unrolled, scoped_iff_scopedFrom, scopedFrom_cons, append_assoc, scopedFrom_append,
      scopedFrom_append]
    exact ⟨labelScoped, bodyScoped, copiesScoped, jumpScoped, trivial⟩
  refine ⟨⟨by rw [unrolled], loop.isLabel, loop.distinct, .inl (closingJump_opcode loop.closes),
    inScope⟩, inScope.isAbove fun box isDefined => ?_⟩
  rw [unrolled] at isDefined ⊢
  simp only [definedBefore, take_length, filterMap_result_cons,
    filterMap_append, filterMap_nil, append_nil, ← append_assoc] at isDefined
  rcases mem_append.mp isDefined with isOld | isResult
  · exact scopes.below box isOld
  have isResult := mem_toList.mp isResult
  unfold Unrolling.closingJump at isResult
  split at isResult
  · cases isResult
  · exact Nat.lt_of_lt_of_le ((above closing isClosing).2 box isResult) scopes.above

/-- Operations that are repeated stay tidy: their snapshots are renamed only where they do not
resume at the header. -/
theorem isTidy_copy {op : Operation} (tidy : op.IsTidy header) (repeated : isRepeated op)
    (state : Unrolling) : (state.copy op).1.IsTidy header := by
  have snapshot : (state.copy op).1.snapshot = if op.isGuard && !op.exitsEarly then
        op.snapshot.map fun snapshot => (snapshot.rename (state.copy op).2.rename).snapshot
      else op.snapshot := rfl
  refine ⟨fun isVoid => ?_, fun noGuard => ?_, fun early box isFailArg => ?_⟩
  · change (state.renewResult op.result).1 = none
    rw [tidy.void isVoid]
    rfl
  · change op.isGuard = false at noGuard
    rw [snapshot, noGuard]
    exact tidy.unguarded noGuard
  have isEarly : op.exitsEarly = true := by
    refine early.resolve_right fun isEarlyExit => ?_
    change op.opcode = .guardEarlyExit at isEarlyExit
    unfold isRepeated at repeated
    rw [isEarlyExit] at repeated
    cases repeated
  rw [isEarly, Bool.not_true, Bool.and_false, if_neg Bool.false_ne_true] at snapshot
  refine tidy.atHeader (.inl isEarly) box ?_
  unfold failArgs at isFailArg ⊢
  rwa [snapshot] at isFailArg

theorem isTidy_copyAll {ops : List Operation} (tidy : ∀ op ∈ ops, op.IsTidy header)
    (repeated : ∀ op ∈ ops, isRepeated op) (state : Unrolling) :
    ∀ op ∈ (state.copyAll ops).1, op.IsTidy header := by
  induction ops generalizing state with
  | nil => exact fun _ member => nomatch member
  | cons first rest ih =>
    intro op member
    rcases mem_cons.mp member with rfl | member
    · exact isTidy_copy (tidy first mem_cons_self) (repeated first mem_cons_self) state
    · exact ih (fun op later => tidy op (mem_cons_of_mem _ later))
        (fun op later => repeated op (mem_cons_of_mem _ later)) _ op member

theorem isTidy_iterate {body : List Operation} (label jump : Operation)
    (tidy : ∀ op ∈ body, op.IsTidy header) (repeated : ∀ op ∈ body, isRepeated op) (count : Nat)
    (state : Unrolling) : ∀ op ∈ (iterate label jump body count state).1, op.IsTidy header := by
  induction count generalizing state with
  | zero => exact fun _ member => nomatch member
  | succ count ih =>
    intro op member
    rcases mem_append.mp member with isCopy | isLater
    · exact isTidy_copyAll tidy repeated _ op isCopy
    · exact ih _ op isLater

theorem isTidyLoop_unroll (loop : IsTidyLoop ops label body closing supply) (count : Nat) :
    ∃ unrolled jump, IsTidyLoop (unroll ops count supply).1 label unrolled jump
      (unroll ops count supply).2 ∧ jump.opcode = .jump := by
  obtain ⟨isLoop, above⟩ := isLoop_unroll loop.toIsLoop loop.above count
  have isJump : (closingJump label closing).opcode = .jump := closingJump_opcode loop.closes
  refine ⟨_, _, ⟨isLoop, fun op member => ?_, above⟩, isJump⟩
  rw [isLoop.shape] at member
  have isBody : ∀ op ∈ body, op ∈ ops := by
    rw [loop.shape]
    exact fun op isOp => mem_cons_of_mem _ (mem_append_left _ isOp)
  rcases mem_cons.mp member with rfl | member
  · refine loop.tidy op ?_
    rw [loop.shape]
    exact mem_cons_self
  rcases mem_append.mp member with isInner | isClosing
  · rcases mem_append.mp isInner with isOld | isCopy
    · exact loop.tidy op (isBody op isOld)
    · refine isTidy_iterate label _ (fun op isOp => ?_) (fun op isOp => ?_) count _ op isCopy
      · exact loop.tidy op (isBody op (mem_filter.mp isOp).1)
      · exact (mem_filter.mp isOp).2
  have tidy : closing.IsTidy label.argBoxes := by
    refine loop.tidy closing ?_
    rw [loop.shape]
    exact mem_cons_of_mem _ (mem_append_right _ (mem_singleton_self _))
  have plain : (closingJump label closing).result = none ∧
      (closingJump label closing).snapshot = none := by
    unfold closingJump
    split
    · exact ⟨rfl, rfl⟩
    rename_i notLabel
    have isJump := loop.closes.resolve_right notLabel
    refine ⟨tidy.void ?_, tidy.unguarded ?_⟩
    · rw [isJump]
      rfl
    · unfold isGuard
      rw [isJump]
      rfl
  rw [mem_singleton.mp isClosing]
  refine ⟨fun _ => plain.1, fun _ => plain.2, fun _ box isFailArg => ?_⟩
  rw [plain.2] at isFailArg
  cases isFailArg

end

end Unrolling

namespace Interpretation

variable {V : Type w} {S : Type x} {ops body : List Operation} {label closing : Operation}
  {supply : BoxSupply}

/-- Where the operations of an iteration stand in the unrolled body. -/
def unrolledPlace (body : List Operation) : Nat × Nat → Nat × Nat
  | (0, position) => (0, position)
  | (iteration + 1, position) => (0, body.length + copyPlace body (iteration, position))

theorem follows_start (meaning : Interpretation V S) (supply : BoxSupply) (environment : Box → V) :
    meaning.Follows supply.next { supply := supply } environment environment := by
  refine ⟨Nat.le_refl _, fun box value entry => ?_, fun box _ => ?_⟩
  · rw [getElem?_empty] at entry
    cases entry
  · change meaning.value environment ((∅ : Std.HashMap Box Value).getD box (.box box)) = _
    rw [getD_empty]
    rfl

/-- A loop and the copies of its body run like the loop and its further iterations. -/
theorem runLoop_copies (meaning : Interpretation V S) {jump : Operation}
    (sameArgs : closing.args = jump.args) (args : ∀ value ∈ jump.args, value.IsBelow supply.next)
    (stays : ∀ op ∈ body, isRepeated op → op.exitsEarly = false)
    (copyable : ∀ op ∈ body, IsCopyable supply.next op) (count : Nat) (environment : Box → V)
    (state : S) :
    let copied := iterate label jump (body.filter isRepeated) count
      { supply := supply }
    meaning.runLoop label { jump with args := jump.args.map copied.2.rename } (body ++ copied.1) 0
        environment state =
      (meaning.runLoop label closing body count environment state).relocate
        (unrolledPlace body) := by
  intro copied
  unfold runLoop
  rw [meaning.goOn_congr sameArgs, meaning.runBody_append, relocate_andThen,
    andThen_andThen, relocate_andThen, relocate_relocate]
  cases meaning.runBody body environment state with
  | left position frames after => rfl
  | finished reached after =>
    have ran := congrArg (relocate fun position => (0, body.length + position))
      ((meaning.follows_start supply reached).goOn label args stays copyable count after)
    rw [relocate_andThen, relocate_relocate] at ran
    change (((meaning.runBody copied.1 reached after).relocate _).relocate _).andThen _ =
      ((meaning.goOn label jump body count reached after).relocate _).relocate _
    rw [relocate_relocate, relocate_relocate]
    exact ran

theorem isCopyable_of_mem (loop : IsLoop ops label body closing) (above : supply.IsAbove ops)
    {op : Operation} (isOp : op ∈ body) : IsCopyable supply.next op := by
  have isMember : op ∈ ops := by
    rw [loop.shape]
    exact mem_cons_of_mem _ (mem_append_left _ isOp)
  obtain ⟨scope, inScope, _⟩ := loop.exists_scope isOp
  refine ⟨(above op isMember).1, fun value isFailArg box isResult same => ?_⟩
  subst same
  exact inScope.2 box isResult (inScope.1 _ (mem_append_right _ isFailArg) box rfl)

/-- Unrolling is exact.  One run of the unrolled loop ends like the loop's body run once and then
`count` further times: with the same values at the jump and in the same state, or at the copy of
the guard that fails, with the same frames and in the same state.  The unrolled loop again defines
every box once and before it is read. -/
theorem runLoop_unroll (meaning : Interpretation V S) (loop : IsLoop ops label body closing)
    (above : supply.IsAbove ops)
    (headers : ∀ op ∈ ops, op.exitsEarly = true → op.opcode = .guardEarlyExit) (count : Nat) :
    ∃ copies jump,
      IsLoop (Unrolling.unroll ops count supply).1 label (body ++ copies) jump ∧
      jump.opcode = .jump ∧
      (Unrolling.unroll ops count supply).2.IsAbove (Unrolling.unroll ops count supply).1 ∧
      (∀ environment state, meaning.runLoop label jump (body ++ copies) 0 environment state =
        (meaning.runLoop label closing body count environment state).relocate
          (unrolledPlace body)) ∧
      ∀ iteration position op, iteration < count → body[position]? = some op →
        Unrolling.isRepeated op = true → ∃ reached : Unrolling,
          (body ++ copies)[(unrolledPlace body (iteration + 1, position)).2]? =
            some (reached.copy op).1 := by
  obtain ⟨isLoop, isAbove⟩ := Unrolling.isLoop_unroll loop above count
  have sameArgs : closing.args = (Unrolling.closingJump label closing).args :=
    (Unrolling.closingJump_args label closing).symm
  have isClosing : closing ∈ ops := by
    rw [loop.shape]
    exact List.mem_cons_of_mem _ (List.mem_append_right _ (List.mem_singleton_self _))
  refine ⟨_, _, isLoop, Unrolling.closingJump_opcode loop.closes, isAbove, ?_, ?_⟩
  · intro environment state
    refine meaning.runLoop_copies sameArgs ?_ ?_ (fun op isOp => isCopyable_of_mem loop above isOp)
      count environment state
    · rw [← sameArgs]
      exact fun value isArg => (above closing isClosing).1 value (List.mem_append_left _ isArg)
    · intro op isOp repeated
      refine Bool.eq_false_iff.mpr fun early => ?_
      have isMember : op ∈ ops := by
        rw [loop.shape]
        exact List.mem_cons_of_mem _ (List.mem_append_left _ isOp)
      rw [Unrolling.isRepeated, headers op isMember early] at repeated
      cases repeated
  · intro iteration position op within found repeated
    change ∃ reached : Unrolling, (body ++ _)[body.length + _]? = _
    rw [List.getElem?_append_right (Nat.le_add_right _ _), Nat.add_sub_cancel_left]
    exact Unrolling.getElem?_iterate within
      (Unrolling.getElem?_filter_isRepeated found repeated) _

end Interpretation

/-! ## A loop that counts -/

namespace CountingLoop

def counter : Box := ⟨0, .int⟩

def label : Operation := { opcode := .label, args := [.box counter] }

def increment : Operation :=
  { opcode := .intAdd, args := [.box counter, .int 1], result := some ⟨1, .int⟩ }

def guard : Operation :=
  { opcode := .guardTrue, args := [.box ⟨1, .int⟩], snapshot := some (.root [.box counter]) }

def jump : Operation := { opcode := .jump, args := [.box ⟨1, .int⟩] }

def ops : List Operation := [label, increment, guard, jump]

/-- Words are added, the state counts operations, and the guard asks for a number other than
three. -/
def meaning : Interpretation Int Nat where
  literal
    | .int word => word.toInt
    | _ => 0
  perform _ _ _ args performed := (args.sum, performed + 1)
  passes _ _ args _ := args != [3]

end CountingLoop

open CountingLoop in
/-- From one the loop counts to two, and leaves in its second iteration; the unrolled loop leaves
at the copy of the guard, with the same snapshot. -/
theorem runLoop_unroll_countingLoop :
    ∃ copies jump,
      IsLoop (Unrolling.unroll ops 1 ⟨2⟩).1 label ([increment, guard] ++ copies) jump ∧
        meaning.runLoop label jump ([increment, guard] ++ copies) 0 (fun _ => 1) 0 =
          .left (0, 3) [[2]] 3 := by
  have loop : IsLoop ops label [increment, guard] CountingLoop.jump :=
    ⟨rfl, rfl, by decide, Or.inl rfl, by decide⟩
  obtain ⟨copies, jump, isLoop, _, _, runs, _⟩ := Interpretation.runLoop_unroll meaning loop
    (by decide : BoxSupply.IsAbove ⟨2⟩ ops) (by decide) 1
  exact ⟨copies, jump, isLoop, runs _ _⟩

end LinearTrace
