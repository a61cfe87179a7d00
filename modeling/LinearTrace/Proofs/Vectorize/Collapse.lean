import LinearTrace.Vectorize.Collapse
import LinearTrace.Proofs.Dependency.Build
import LinearTrace.Proofs.Scope.Sequence

/-!
# Collapsing guards keeps a loop in scope

What is dropped are guards, which define nothing, and comparisons whose result
nothing reads any more.  What is changed is index arithmetic, and the base box that
it then starts from was defined before.
-/

namespace LinearTrace

open List Option Bool IndexVar IndexTable

variable {position count : Nat} {state : GuardCollapse} {kept : List Operation}
  {comparisons : Std.HashMap Box Comparison}

/-- What nothing that is kept reads may be left out. -/
theorem ScopedFrom.filter {α : Type} {view : α → Operation} {items : List α} {keep : α → Bool}
    {defined kept : List Box} (inScope : ScopedFrom defined (items.map view))
    (fewer : ∀ box ∈ kept, box ∈ defined)
    (enough : ∀ item ∈ items, keep item → ∀ box, .box box ∈ (view item).uses →
      box ∈ defined → box ∈ kept)
    (unread : ∀ item ∈ items, keep item = false → ∀ box ∈ (view item).result,
      ∀ other ∈ items, keep other → .box box ∉ (view other).uses) :
    ScopedFrom kept ((items.filter keep).map view) := by
  induction items generalizing defined kept with
  | nil => exact trivial
  | cons item rest ih =>
    obtain ⟨⟨uses, fresh⟩, inScope⟩ := inScope
    have restEnough : ∀ other ∈ rest, keep other = true → ∀ box, .box box ∈ (view other).uses →
        box ∈ defined → box ∈ kept :=
      fun other member => enough other (mem_cons_of_mem _ member)
    have restUnread : ∀ other ∈ rest, keep other = false → ∀ box ∈ (view other).result,
        ∀ user ∈ rest, keep user = true → .box box ∉ (view user).uses :=
      fun other member gone box isResult user isUser =>
        unread other (mem_cons_of_mem _ member) gone box isResult user (mem_cons_of_mem _ isUser)
    cases isKept : keep item with
    | true =>
      rw [filter_cons_of_pos isKept]
      refine ⟨⟨fun value isUse box isBox => ?_, fun box isResult isOld =>
        fresh box isResult (fewer box isOld)⟩, ih inScope (fun box member => ?_)
          (fun other member keptOther box isUse isDefined => ?_) restUnread⟩
      · cases value with
        | const literal => cases isBox
        | box used =>
          cases isBox
          exact enough item mem_cons_self isKept box isUse (uses _ isUse box rfl)
      · exact mem_append.mpr ((mem_append.mp member).imp_left (fewer box))
      · exact mem_append.mpr ((mem_append.mp isDefined).imp_left
          (restEnough other member keptOther box isUse))
    | false =>
      rw [filter_cons_of_neg (by rw [isKept]; exact false_ne_true)]
      refine ih inScope (fun box member => mem_append_left _ (fewer box member))
        (fun other member keptOther box isUse isDefined => ?_) restUnread
      rcases mem_append.mp isDefined with isOld | isResult
      · exact restEnough other member keptOther box isUse isOld
      · exact absurd isUse (unread item mem_cons_self isKept box
          (mem_toList.mp isResult) other (mem_cons_of_mem _ member) keptOther)

/-! ## Base boxes -/

namespace IndexVar

variable {index result : IndexVar} {word : Int64}

theorem base_add? (isSum : index.add? word = some result) : result.base = index.base := by
  obtain ⟨_, _, isResult⟩ := bind_eq_some_iff.mp isSum
  cases isResult
  rfl

theorem base_sub? (isDifference : index.sub? word = some result) : result.base = index.base := by
  obtain ⟨_, _, isResult⟩ := bind_eq_some_iff.mp isDifference
  cases isResult
  rfl

theorem base_mul? (isProduct : index.mul? word = some result) : result.base = index.base := by
  obtain ⟨_, _, isRest⟩ := bind_eq_some_iff.mp isProduct
  obtain ⟨_, _, isResult⟩ := bind_eq_some_iff.mp isRest
  cases isResult
  rfl

theorem base_div? (isQuotient : index.div? word = some result) : result.base = index.base := by
  unfold div? at isQuotient
  split at isQuotient
  · cases isQuotient
  · obtain ⟨_, _, isResult⟩ := bind_eq_some_iff.mp isQuotient
    cases isResult
    rfl

end IndexVar

namespace IndexTable

variable {table : IndexTable} {defined : List Box} {op : Operation} {ops : List Operation}
  {box : Box} {index : IndexVar}

/-- The indices of the table are computed from some boxes. -/
def BasedOn (defined : List Box) (table : IndexTable) : Prop :=
  ∀ (box : Box) index, table[box]? = some index → ∀ base ∈ index.base, base ∈ defined

theorem BasedOn.lookup (based : table.BasedOn defined) (isBox : box ∈ defined) :
    ∀ base ∈ (IndexVar.lookup table box).base, base ∈ defined := by
  unfold IndexVar.lookup
  rw [Std.HashMap.getD_eq_getD_getElem?]
  cases found : table[box]? with
  | none =>
    intro base isBase
    cases isBase
    exact isBox
  | some index => exact based box index found

theorem boxAndWord?_eq_some {left right : Value} {word : Int64} {wordFirst : Bool}
    (isPair : boxAndWord? left right = some (box, word, wordFirst)) : .box box ∈ [left, right] := by
  unfold boxAndWord? at isPair
  split at isPair
  · obtain ⟨_, _, isPair⟩ := map_eq_some_iff.mp isPair
    cases isPair
    exact mem_cons_self
  · obtain ⟨_, _, isPair⟩ := map_eq_some_iff.mp isPair
    cases isPair
    exact mem_cons_of_mem _ mem_cons_self
  · cases isPair

theorem base_derive? (derived : table.derive? op = some index) :
    ∃ box, .box box ∈ op.args ∧ index.base = (lookup table box).base := by
  unfold derive? at derived
  split at derived
  next left right isArgs =>
    obtain ⟨⟨box, word, wordFirst⟩, isPair, derived⟩ := bind_eq_some_iff.mp derived
    refine ⟨box, isArgs ▸ boxAndWord?_eq_some isPair, ?_⟩
    dsimp only at derived
    split at derived
    · exact base_add? derived
    · exact base_sub? derived
    · exact base_mul? derived
    · exact base_div? derived
    · cases derived
  · cases derived

theorem BasedOn.mono (based : table.BasedOn defined) {more : List Box}
    (subset : ∀ box ∈ defined, box ∈ more) : table.BasedOn more :=
  fun box index found base isBase => subset base (based box index found base isBase)

theorem BasedOn.extend (based : table.BasedOn defined) (inScope : op.ScopedIn defined) :
    (table.extend op).BasedOn defined := by
  unfold IndexTable.extend
  split
  next result index _ derived =>
    intro box found isFound
    rcases eq_or_getElem?_of_insert isFound with ⟨_, rfl⟩ | ⟨_, isFound⟩
    · obtain ⟨source, isArg, isBase⟩ := base_derive? derived
      rw [isBase]
      exact based.lookup (inScope.1 _ (mem_append_left _ isArg) source rfl)
    · exact based box found isFound
  · exact based

theorem getElem?_extend (notResult : box ∉ op.result) : (table.extend op)[box]? = table[box]? := by
  unfold extend
  split
  next result _ isResult _ =>
    rw [Std.HashMap.getElem?_insert, if_neg]
    intro same
    rw [isResult, eq_of_beq same] at notResult
    exact notResult rfl
  · rfl

theorem getElem?_foldl_extend (inScope : ScopedFrom defined ops) (isDefined : box ∈ defined) :
    (ops.foldl extend table)[box]? = table[box]? := by
  induction ops generalizing defined table with
  | nil => rfl
  | cons op rest ih =>
    obtain ⟨isScoped, inScope⟩ := inScope
    rw [foldl_cons, ih inScope (mem_append_left _ isDefined)]
    exact getElem?_extend fun isResult => isScoped.2 box isResult isDefined

end IndexTable

namespace GuardCollapse

variable {indices : IndexTable} {defined : List Box} {op : Operation} {ops : List Operation}

/-- An operation is kept as it is, or it becomes the sum of a base box and a constant. -/
theorem adapt_eq (indices : IndexTable) (op : Operation) :
    adapt indices op = op ∨ op.opcode.isPure ∧ ∃ result index base,
      op.result = some result ∧ indices[result]? = some index ∧ index.base = some base ∧
        index.isUnit ∧
        adapt indices op = op.recode .intAdd [.box base, .int index.offset] := by
  unfold adapt
  split
  next index isPure found =>
    obtain ⟨result, isResult, found⟩ := bind_eq_some_iff.mp found
    unfold IndexVar.adapt
    split
    case h_3 => exact .inl rfl
    all_goals
      rename_i base _ isBase
      split
      next isChanged =>
        rw [and_eq_true, and_eq_true] at isChanged
        exact .inr ⟨isPure, result, index, base, isResult, found, isBase, isChanged.1.1, rfl⟩
      · exact .inl rfl
  · exact .inl rfl

theorem result_adapt (indices : IndexTable) (op : Operation) :
    (adapt indices op).result = op.result := by
  rcases adapt_eq indices op with same | ⟨_, _, _, _, _, _, _, _, isRecoded⟩
  · rw [same]
  · rw [isRecoded]
    rfl

theorem adapt_of_not_isPure (impure : op.opcode.isPure = false) : adapt indices op = op := by
  rcases adapt_eq indices op with same | ⟨isPure, _⟩
  · exact same
  · rw [impure] at isPure
    cases isPure

theorem scopedIn_adapt (inScope : op.ScopedIn defined)
    (based : ∀ box ∈ op.result, ∀ index, indices[box]? = some index →
      ∀ base ∈ index.base, base ∈ defined) : (adapt indices op).ScopedIn defined := by
  rcases adapt_eq indices op with
    same | ⟨_, result, index, base, isResult, found, isBase, _, isRecoded⟩
  · rw [same]
    exact inScope
  rw [isRecoded]
  refine ⟨fun value isUse => ?_, inScope.2⟩
  rcases mem_append.mp isUse with isArg | isFailArg
  · rcases mem_cons.mp isArg with rfl | isOffset
    · intro box isBox
      cases isBox
      exact based result isResult index found base isBase
    · rw [mem_singleton.mp isOffset]
      exact fun _ isBox => nomatch isBox
  · exact inScope.1 value (mem_append_right _ isFailArg)

/-- All index arithmetic may start from base boxes. -/
theorem scopedFrom_adapt {table : IndexTable} (inScope : ScopedFrom defined ops)
    (based : table.BasedOn defined) (isFinal : ops.foldl extend table = indices) :
    ScopedFrom defined (ops.map (adapt indices)) := by
  induction ops generalizing defined table with
  | nil => exact trivial
  | cons op rest ih =>
    obtain ⟨isScoped, inScope⟩ := inScope
    have extended := based.extend isScoped
    refine ⟨scopedIn_adapt isScoped fun box isResult index found => ?_, ?_⟩
    · -- Nothing is learned about the result later on.
      rw [← isFinal, foldl_cons, getElem?_foldl_extend inScope
        (mem_append_right _ (mem_toList.mpr isResult))] at found
      exact extended box index found
    · rw [result_adapt]
      exact ih inScope (extended.mono fun _ => mem_append_left _) isFinal

/-! ## Superfluous guards -/

/-- There is a guard at the position. -/
def IsGuardAt (ops : List Operation) (position : Nat) : Prop :=
  ∃ op, ops[position]? = some op ∧ op.isGuard = true

/-- The positions that are remembered are positions of guards. -/
structure IsSound (ops : List Operation) (state : GuardCollapse) : Prop where
  strongest : ∀ (key : GuardKey) entry, state.strongest[key]? = some entry → IsGuardAt ops entry.2
  dropped : ∀ position ∈ state.dropped, IsGuardAt ops position

theorem IsSound.consider (sound : state.IsSound ops) (condition : IndexCondition)
    (isGuard : IsGuardAt ops position) : (state.consider condition position).IsSound ops := by
  have inserted : ∀ (key : GuardKey) entry,
      (state.strongest.insert condition.key (condition.offset, position))[key]? = some entry →
        IsGuardAt ops entry.2 := by
    intro key entry found
    rcases eq_or_getElem?_of_insert found with ⟨_, rfl⟩ | ⟨_, found⟩
    · exact isGuard
    · exact sound.strongest key entry found
  unfold GuardCollapse.consider
  split
  · exact ⟨inserted, sound.dropped⟩
  rename_i offset earlier found
  split
  · refine ⟨inserted, fun other member => ?_⟩
    rcases mem_cons.mp member with rfl | isOld
    · exact sound.strongest _ _ found
    · exact sound.dropped other isOld
  · refine ⟨sound.strongest, fun other member => ?_⟩
    rcases mem_cons.mp member with rfl | isOld
    · exact isGuard
    · exact sound.dropped other isOld

theorem isGuard_of_ofGuard {condition : IndexCondition}
    (isCondition : IndexCondition.ofGuard indices comparisons op = .ok (some condition)) :
    op.isGuard := by
  unfold IndexCondition.ofGuard at isCondition
  dsimp only at isCondition
  split at isCondition
  next isChecked =>
    rw [and_eq_true] at isChecked
    exact (and_eq_true_iff.mp isChecked.1).1
  · cases isCondition

theorem IsSound.scan {front rest : List Operation} {final : GuardCollapse}
    (sound : state.IsSound ops) (isOps : ops = front ++ rest)
    (scanned : scan indices comparisons front.length rest state = .ok final) :
    final.IsSound ops := by
  induction rest generalizing front state with
  | nil =>
    cases scanned
    exact sound
  | cons op rest ih =>
    obtain ⟨condition, isCondition, scanned⟩ := Fault.bind_eq_ok.mp scanned
    have isNext : ops = (front ++ [op]) ++ rest := by
      rw [isOps, append_assoc]
      rfl
    refine ih ?_ isNext (by rw [length_append]; exact scanned)
    cases condition with
    | none => exact sound
    | some condition =>
      refine sound.consider condition ⟨op, ?_, isGuard_of_ofGuard isCondition⟩
      rw [isOps, getElem?_append_right (Nat.le_refl _), Nat.sub_self]
      rfl

/-- The operations that are kept, with index arithmetic adapted. -/
def keepBy (keep : Operation × Nat → Bool) (ops : List Operation) (entries : List (Operation × Nat)) :
    List Operation :=
  (entries.filter keep).map fun entry => adapt (IndexTable.ofOperations ops) entry.1

theorem keepBy_append (keep : Operation × Nat → Bool) (ops : List Operation)
    (front rest : List (Operation × Nat)) :
    keepBy keep ops (front ++ rest) = keepBy keep ops front ++ keepBy keep ops rest := by
  unfold keepBy
  rw [filter_append, map_append]

/-- Only guards are dropped, and operations whose result nothing that is kept reads. -/
def MayKeep (keep : Operation × Nat → Bool) (ops : List Operation) : Prop :=
  ∀ entry ∈ ops.zipIdx, keep entry = false → entry.1.isGuard = true ∨
    ∃ box, entry.1.result = some box ∧ ∀ other ∈ ops.zipIdx, keep other = true →
      .box box ∉ (adapt (IndexTable.ofOperations ops) other.1).uses

/-- What is left out are the guards that the scan drops and the conditions of such guards, once
nothing that is kept reads them. -/
def LeavesOut (state : GuardCollapse) (keep : Operation × Nat → Bool) (ops : List Operation) :
    Prop :=
  ∀ entry ∈ ops.zipIdx, keep entry = false → entry.2 ∈ state.dropped ∨
    ∃ box, entry.1.result = some box ∧
      (∃ gone ∈ ops.zipIdx, gone.2 ∈ state.dropped ∧
        gone.1.args.head?.bind Value.box? = some box) ∧
      ∀ other ∈ ops.zipIdx, keep other = true →
        .box box ∉ (adapt (IndexTable.ofOperations ops) other.1).uses

theorem exists_scan (collapsed : collapse ops = .ok (kept, count)) :
    ∃ comparisons state keep, Comparison.table ops = .ok comparisons ∧
      scan (IndexTable.ofOperations ops) comparisons 0 ops {} = .ok state ∧
      kept = keepBy keep ops ops.zipIdx ∧ state.LeavesOut keep ops := by
  obtain ⟨comparisons, isTable, collapsed⟩ := Fault.bind_eq_ok.mp collapsed
  obtain ⟨state, scanned, collapsed⟩ := Fault.bind_eq_ok.mp collapsed
  dsimp only at collapsed
  rw [partition_eq_filter_filter] at collapsed
  obtain ⟨isKept, _⟩ := Prod.mk.inj (Except.ok.inj collapsed)
  rw [List.filter_map, List.filter_filter] at isKept
  refine ⟨comparisons, state, _, isTable, scanned, isKept.symm, fun entry isEntry gone => ?_⟩
  rcases and_eq_false_iff.mp gone with notLive | isDropped
  · right
    dsimp only [Function.comp] at notLive
    split at notLive
    next box isResult =>
      rw [result_adapt] at isResult
      rw [or_eq_false_iff, not_eq_false', contains_iff_mem] at notLive
      obtain ⟨⟨guard, position⟩, isGone, isCondition⟩ := mem_filterMap.mp notLive.1
      obtain ⟨isGuard, isDropped⟩ := mem_filter.mp isGone
      refine ⟨box, isResult, ⟨(guard, position), isGuard, by simpa using isDropped, isCondition⟩,
        fun other isOther isKept isUse => ?_⟩
      have unused := notLive.2
      rw [Std.HashSet.contains_ofList, contains_eq_mem, decide_eq_false_iff_not] at unused
      refine unused (mem_flatMap.mpr ⟨_, List.mem_map.mpr ⟨other, ?_, rfl⟩,
        mem_filterMap.mpr ⟨_, isUse, rfl⟩⟩)
      exact mem_filter.mpr ⟨isOther, (and_eq_true_iff.mp isKept).2⟩
    · cases notLive
  · exact .inl (by simpa using isDropped)

theorem LeavesOut.mayKeep {keep : Operation × Nat → Bool} (leaves : state.LeavesOut keep ops)
    (scanned : scan indices comparisons 0 ops {} = .ok state) : MayKeep keep ops := by
  have sound : state.IsSound ops := by
    have start : IsSound ops {} := by
      refine ⟨fun key entry found => ?_, fun _ member => absurd member not_mem_nil⟩
      rw [Std.HashMap.getElem?_empty] at found
      cases found
    exact start.scan (show ops = [] ++ ops from rfl) scanned
  intro entry isEntry gone
  rcases leaves entry isEntry gone with isDropped | ⟨box, isResult, _, unread⟩
  · left
    obtain ⟨op, found, isGuard⟩ := sound.dropped entry.2 isDropped
    rw [mem_zipIdx_iff_getElem?.mp isEntry] at found
    cases found
    exact isGuard
  · exact .inr ⟨box, isResult, unread⟩

theorem exists_keep (collapsed : collapse ops = .ok (kept, count)) :
    ∃ keep, kept = keepBy keep ops ops.zipIdx ∧ MayKeep keep ops := by
  obtain ⟨_, _, keep, _, scanned, isKept, leaves⟩ := exists_scan collapsed
  exact ⟨keep, isKept, leaves.mayKeep scanned⟩

section

variable {keep : Operation × Nat → Bool} (mayKeep : MayKeep keep ops)

include mayKeep

theorem MayKeep.scopedFrom (guards : ∀ op ∈ ops, op.isGuard → op.result = none)
    (inScope : ScopedFrom defined ops) : ScopedFrom defined (keepBy keep ops ops.zipIdx) := by
  have adapted : ScopedFrom defined (ops.zipIdx.map (adapt (ofOperations ops) ∘ Prod.fst)) := by
    rw [← List.map_map, zipIdx_map_fst]
    refine scopedFrom_adapt inScope (fun box index found => ?_) rfl
    rw [Std.HashMap.getElem?_empty] at found
    cases found
  refine adapted.filter (fun _ => id) (fun _ _ _ _ _ => id) fun entry isEntry isGone box isResult => ?_
  change box ∈ (adapt _ entry.1).result at isResult
  rw [result_adapt] at isResult
  rcases mayKeep entry isEntry isGone with isGuard | ⟨result, hasResult, unread⟩
  · rw [guards entry.1 (fst_mem_of_mem_zipIdx isEntry) isGuard] at isResult
    cases isResult
  · rw [hasResult] at isResult
    cases isResult
    exact unread

theorem MayKeep.keepBy_singleton
    (void : ∀ op ∈ ops, op.opcode.resultClass = .void → op.result = none)
    (isEntry : (op, position) ∈ ops.zipIdx)
    (isEnd : op.opcode = .jump ∨ op.opcode = .label) : keepBy keep ops [(op, position)] = [op] := by
  have impure : op.opcode.isPure = false := by
    rcases isEnd with isEnd | isEnd <;> rw [isEnd] <;> rfl
  have noGuard : op.opcode.isGuard = false := by
    rcases isEnd with isEnd | isEnd <;> rw [isEnd] <;> rfl
  have noResult := void op (fst_mem_of_mem_zipIdx isEntry) (by
    rcases isEnd with isEnd | isEnd <;> rw [isEnd] <;> rfl)
  have isKept : keep (op, position) = true := by
    refine eq_true_of_not_eq_false fun isGone => ?_
    rcases mayKeep _ isEntry isGone with isGuard | ⟨result, hasResult, _⟩
    · exact absurd (noGuard.symm.trans isGuard) false_ne_true
    · exact absurd (noResult.symm.trans hasResult) (some_ne_none _).symm
  unfold keepBy
  rw [filter_cons_of_pos isKept, filter_nil, map_singleton,
    adapt_of_not_isPure impure]

end

/-- Collapsing the guards of a loop leaves a loop with the same ends. -/
theorem exists_isLoop_of_collapse {label closing : Operation} {body : List Operation}
    (loop : IsLoop ops label body closing)
    (void : ∀ op ∈ ops, op.opcode.resultClass = .void → op.result = none)
    (collapsed : collapse ops = .ok (kept, count)) : ∃ body, IsLoop kept label body closing := by
  obtain ⟨keep, rfl, mayKeep⟩ := exists_keep collapsed
  have inScope : ScopedFrom label.argBoxes (keepBy keep ops ops.zipIdx) := by
    refine mayKeep.scopedFrom
      (fun op isOp isGuard => void op isOp (Opcode.resultClass_of_isGuard isGuard)) ?_
    have inScope := loop.inScope
    rw [loop.shape] at inScope ⊢
    exact (scoped_iff_scopedFrom label _).mp inScope
  have isIndexed : ops.zipIdx =
      [(label, 0)] ++ (body.zipIdx 1 ++ [(closing, 1 + body.length)]) := by
    rw [loop.shape, zipIdx_cons, zipIdx_append]
    rfl
  have isLabel : keepBy keep ops [(label, 0)] = [label] :=
    mayKeep.keepBy_singleton void (by rw [isIndexed]; simp) (.inr loop.isLabel)
  have isClosing : keepBy keep ops [(closing, 1 + body.length)] = [closing] :=
    mayKeep.keepBy_singleton void (by rw [isIndexed]; simp) loop.closes
  have shape : keepBy keep ops ops.zipIdx =
      label :: (keepBy keep ops (body.zipIdx 1) ++ [closing]) := by
    rw [isIndexed, keepBy_append, keepBy_append, isLabel, isClosing]
    rfl
  refine ⟨_, shape, loop.isLabel, loop.distinct, loop.closes, ?_⟩
  rw [shape] at inScope ⊢
  exact (scoped_iff_scopedFrom label _).mpr inScope

end GuardCollapse

end LinearTrace
