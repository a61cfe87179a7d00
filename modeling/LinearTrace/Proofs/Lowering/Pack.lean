import LinearTrace.Proofs.Lowering

/-!
# Lowering a pack

A pack whose operands can be read is lowered to vector operations in scope, part
by part, and afterwards a lane holds the result of every member.  An operation
that stays scalar is lowered to the same operation on values in scope.
-/

namespace LinearTrace

open List DependencyGraph

variable {position length : Nat} {value : Value} {vector opcode : Opcode} {members : List Nat}
  {before after : Lowering} {op : Operation}

theorem getElem?_of_forall₂ {α β : Type} {relation : α → β → Prop} {first : List α}
    {second : List β} (related : List.Forall₂ relation first second) {left : α} {right : β}
    (isLeft : first[position]? = some left) (isRight : second[position]? = some right) :
    relation left right := by
  obtain ⟨inFirst, rfl⟩ := List.getElem?_eq_some_iff.mp isLeft
  obtain ⟨inSecond, rfl⟩ := List.getElem?_eq_some_iff.mp isRight
  exact related.get inFirst inSecond

namespace Opcode

theorem resultClass_of_vectorSignature? {signature : VectorSignature}
    (isSignature : vector.vectorSignature? = some signature) (valued : signature.result ≠ none) :
    vector.resultClass ≠ .void := by
  revert isSignature
  cases vector <;> rintro ⟨⟩ <;> first | exact absurd rfl valued | exact nofun

theorem void_of_vectorSignature? {signature : VectorSignature}
    (isForm : opcode.vectorForm? = some vector)
    (isSignature : vector.vectorSignature? = some signature) (noResult : signature.result = none) :
    opcode.resultClass = .void := by
  revert isForm
  cases opcode <;> rintro ⟨⟩ <;> cases isSignature <;> first | rfl | cases noResult

end Opcode

theorem DependencyGraph.fetch_eq_ok {graph : DependencyGraph} {node : Node}
    (fetched : graph.fetch position = .ok node) : node = graph.node position := by
  unfold fetch at fetched
  split at fetched
  next found =>
    cases fetched
    unfold DependencyGraph.node
    rw [Array.getD_eq_getD_getElem?, found]
    rfl
  · cases fetched

theorem Operation.mem_of_arg_eq_ok (read : op.arg position = .ok value) : value ∈ op.args := by
  unfold arg at read
  split at read
  · cases read
    exact mem_of_getElem? ‹_›
  · cases read

namespace Lowering

variable {α : Type} {header : List Box} {bound : Nat} {made : Box → Prop} {lowering : Lowering}
  {graph : DependencyGraph} {part : List Nat} {signature : VectorSignature} {type : LaneType}

namespace Lowers

theorem lift {work : Except Fault α} {post : α → Lowering → Prop}
    (holds : ∀ value, work = .ok value → post value lowering) :
    Lowers header bound made (liftM work : LoweringM α) lowering post := by
  intro sound
  cases work with
  | ok value => exact ⟨sound, Extends.refl lowering, holds value rfl⟩
  | error fault => cases fault <;> exact trivial

/-- What is reached for every element of a list and then kept is reached for all of them. -/
theorem forM {work : α → LoweringM PUnit} {items : List α} {motive : α → Lowering → Prop}
    (mono : ∀ item before after, Extends before after → motive item before → motive item after)
    (each : ∀ item ∈ items, ∀ after, Extends lowering after →
      Lowers header bound made (work item) after fun _ ended => motive item ended) :
    Lowers header bound made (items.forM work) lowering fun _ after =>
      ∀ item ∈ items, motive item after := by
  induction items generalizing lowering with
  | nil => exact pure fun _ member => nomatch member
  | cons item rest ih =>
    refine (each item mem_cons_self lowering (Extends.refl lowering)).bind
      fun _ after longer _ isFirst => ?_
    intro sound
    refine (ih (fun other member later further => each other (mem_cons_of_mem _ member) later
      (longer.trans further)) sound).weaken fun _ ended holds => ?_
    refine ⟨holds.1, holds.2.1, fun other member => ?_⟩
    rcases mem_cons.mp member with rfl | member
    · exact mono _ _ _ holds.2.1 isFirst
    · exact holds.2.2 other member

end Lowers

/-! ## Operands -/

/-- The operands of the members can be read. -/
def CanRead (header : List Box) (graph : DependencyGraph) (members : List Nat)
    (lowering : Lowering) : Prop :=
  ∀ member ∈ members, ∀ value ∈ (graph.op member).args, IsReadable header lowering value

theorem CanRead.mono (readable : CanRead header graph members before)
    (longer : Extends before after) : CanRead header graph members after :=
  fun member isMember value isArg => (readable member isMember value isArg).mono longer

theorem lowers_lowerOperand (notEmpty : part ≠ []) (readable : CanRead header graph part lowering)
    (isReadable : IsReadable header lowering value) (position : Nat) :
    Lowers header bound made (lowerOperand graph signature type part value position) lowering
      fun operand after => IsScoped header after operand.1 := by
  unfold lowerOperand
  split
  next lanes isVector =>
    refine (Lowers.mapM (motive := fun value after => IsReadable header after value)
      (fun _ _ _ longer isReadable => isReadable.mono longer)
      fun member isMember after longer => ?_).bind fun values after longer _ areValues => ?_
    · refine .bind_lift fun node fetched => Lowers.lift fun value read => ?_
      have isArg := Operation.mem_of_arg_eq_ok read
      rw [fetch_eq_ok fetched] at isArg
      exact (readable member isMember value isArg).mono longer
    · have someValues : values ≠ [] := by
        rintro rfl
        exact notEmpty (length_eq_zero_iff.mp areValues.1.symm)
      refine (lowers_vectorOperand someValues areValues.2 _ _).bind
        fun operand ended _ _ isOperand => Lowers.pure (isScoped_vector isOperand)
  · exact (lowers_scalar isReadable).bind fun source after _ _ isSource => Lowers.pure isSource

/-! ## Results -/

/-- The results of the members are held by lanes. -/
def HoldsResults (graph : DependencyGraph) (members : List Nat) (lowering : Lowering) : Prop :=
  ∀ member ∈ members, ∀ box, (graph.op member).result = some box → lowering.lanes[box]?.isSome

theorem HoldsResults.mono (holds : HoldsResults graph members before)
    (longer : Extends before after) : HoldsResults graph members after :=
  fun member isMember box isResult => longer.lanes box (holds member isMember box isResult)

/-- The lanes of a vector, from a position on, are remembered for the results of the members, and
the lanes of other boxes are kept. -/
def Records (graph : DependencyGraph) (vector : VectorBox) (position : Nat) (members : List Nat)
    (before after : Std.HashMap Box Lane) : Prop :=
  ∀ box, (∀ member ∈ members, (graph.op member).result ≠ some box) ∧ after[box]? = before[box]? ∨
    ∃ index member, members[index]? = some member ∧ (graph.op member).result = some box ∧
      after[box]? = some ⟨position + index, vector⟩

namespace Records

variable {vector : VectorBox} {member index : Nat} {lanes further : Std.HashMap Box Lane}
  {box : Box}

theorem cons {middle : Std.HashMap Box Lane} (first : ∀ box : Box, middle[box]? =
      if (graph.op member).result = some box then some ⟨position, vector⟩ else lanes[box]?)
    (rest : Records graph vector (position + 1) members middle further) :
    Records graph vector position (member :: members) lanes further := by
  intro box
  rcases rest box with ⟨notLater, isKept⟩ | ⟨index, other, isOther, isResult, isLane⟩
  · rw [first] at isKept
    split at isKept
    next isResult => exact .inr ⟨0, member, rfl, isResult, isKept⟩
    next notResult => exact .inl ⟨forall_mem_cons.mpr ⟨notResult, notLater⟩, isKept⟩
  · refine .inr ⟨index + 1, other, isOther, isResult, ?_⟩
    rw [isLane, Nat.add_right_comm, Nat.add_assoc]

section

variable (records : Records graph vector position members lanes further)

include records

theorem isSome_of_result (isMember : member ∈ members)
    (isResult : (graph.op member).result = some box) : further[box]?.isSome := by
  rcases records box with ⟨notResult, _⟩ | ⟨_, _, _, _, isLane⟩
  · exact absurd isResult (notResult member isMember)
  · rw [isLane]
    rfl

theorem isSome_of_isSome (held : lanes[box]?.isSome) : further[box]?.isSome := by
  rcases records box with ⟨_, isKept⟩ | ⟨_, _, _, _, isLane⟩
  · rwa [isKept]
  · rw [isLane]
    rfl

end

end Records

theorem ensures_recordLanes (graph : DependencyGraph) (vector : VectorBox) (position : Nat)
    (members : List Nat) (lowering : Lowering) :
    Ensures True (recordLanes graph vector position members) lowering fun _ after =>
      ∃ lanes, after = { lowering with lanes := lanes } ∧
        Records graph vector position members lowering.lanes lanes := by
  induction members generalizing position lowering with
  | nil => exact ⟨lowering.lanes, rfl, fun _ => .inl ⟨forall_mem_nil _, rfl⟩⟩
  | cons member rest ih =>
    refine .bind_lift (EnsuresValue.of_ok fun node fetched => ?_)
    rw [show node.op = graph.op member from congrArg Node.op (fetch_eq_ok fetched)]
    split
    next result isResult =>
      refine (ih (position + 1) { lowering with
        lanes := lowering.lanes.insert result ⟨position, vector⟩ }).weaken fun _ after ended => ?_
      obtain ⟨lanes, isAfter, records⟩ := ended
      refine ⟨lanes, isAfter, records.cons fun box => ?_⟩
      simp only [Std.HashMap.getElem?_insert, isResult, beq_iff_eq, Option.some.injEq]
    next noResult =>
      refine (ih (position + 1) lowering).weaken fun _ after ended => ?_
      obtain ⟨lanes, isAfter, records⟩ := ended
      refine ⟨lanes, isAfter, records.cons fun box => ?_⟩
      rw [noResult, if_neg nofun]

theorem IsSound.held (sound : IsSound header bound made lowering) {lanes : Std.HashMap Box Lane}
    (inScope : ∀ (box : Box) lane, lanes[box]? = some lane →
      lane.vector.toBox ∈ scope header lowering) (vectorOps : Nat) :
    IsSound header bound made { lowering with lanes := lanes, vectorOps := vectorOps } :=
  { sound with lanes := inScope }

theorem ensures_lowerResult (graph : DependencyGraph) (signature : VectorSignature)
    (type : LaneType) (part : List Nat) (args : List Value) (lowering : Lowering) :
    Ensures True (lowerResult graph signature type part args) lowering fun result after =>
      (result = none ∧ signature.result = none ∧ after = lowering) ∨
        ∃ types shape lanes, signature.result = some types ∧
          resultShape signature ((resolvedLanes signature type types).shape part.length) args =
            .ok shape ∧ result = some ⟨lowering.supply.next, shape⟩ ∧
          after = { lowering with supply := ⟨lowering.supply.next + 1⟩, lanes := lanes } ∧
          Records graph ⟨lowering.supply.next, shape⟩ 0 part lowering.lanes lanes := by
  unfold lowerResult
  split
  next noResult => exact .inl ⟨rfl, noResult, rfl⟩
  next types isResult =>
    refine .bind_lift (EnsuresValue.of_ok fun shape isShape => ?_)
    refine (ensures_recordLanes graph ⟨lowering.supply.next, shape⟩ 0 part
      { lowering with supply := ⟨lowering.supply.next + 1⟩ }).bind fun _ after recorded => ?_
    obtain ⟨lanes, isAfter, records⟩ := recorded
    exact .inr ⟨types, shape, lanes, isResult, isShape, rfl, isAfter, records⟩

theorem isScoped_partArgs {operands : List (Value × Option Nat)}
    (areOperands : ∀ operand ∈ operands, IsScoped header lowering operand.1) (passesOffset : Bool)
    (offset length : Nat) :
    ∀ value ∈ operands.map Prod.fst ++ (if passesOffset then [.count offset] else []) ++
      [.count length], IsScoped header lowering value := by
  intro value member
  rcases mem_append.mp member with member | isLength
  · rcases mem_append.mp member with member | isOffset
    · obtain ⟨operand, isOperand, rfl⟩ := List.mem_map.mp member
      exact areOperands operand isOperand
    split at isOffset
    · rw [mem_singleton.mp isOffset]
      exact isScoped_const header lowering _
    · cases isOffset
  · rw [mem_singleton.mp isLength]
    exact isScoped_const header lowering _

/-- The vector operation of a part whose operands can be read is in scope, and its lanes hold the
results of the part. -/
theorem lowers_lowerPart (isSignature : opcode.vectorSignature? = some signature)
    (notEmpty : part ≠ []) (readable : CanRead header graph part lowering)
    (void : signature.result = none → ∀ member ∈ part, (graph.op member).result = none) :
    Lowers header bound made (lowerPart graph opcode signature type part) lowering fun _ after =>
      HoldsResults graph part after := by
  refine .bind_lift fun node fetched => ?_
  have isFirst : part.headD 0 ∈ part := by
    cases part with
    | nil => exact absurd rfl notEmpty
    | cons first rest => exact mem_cons_self
  have isNode : node.op = graph.op (part.headD 0) :=
    congrArg Node.op (fetch_eq_ok fetched)
  refine (Lowers.mapM (motive := fun (operand : Value × Option Nat) after =>
    IsScoped header after operand.1) (fun _ _ _ longer isScoped => isScoped.mono longer)
    fun entry isEntry after longer => ?_).bind fun operands after longer _ areOperands => ?_
  · have isArg : entry.1 ∈ (graph.op (part.headD 0)).args := by
      rw [← isNode]
      exact fst_mem_of_mem_zipIdx isEntry
    exact lowers_lowerOperand notEmpty (readable.mono longer)
      ((readable _ isFirst _ isArg).mono longer) entry.2
  intro sound
  dsimp only
  have areScoped := isScoped_partArgs areOperands.2 signature.passesOffset
    ((operands.filterMap Prod.snd).getLastD 0) part.length
  generalize operands.map Prod.fst ++ _ ++ _ = args at areScoped
  have uses : ∀ result, ∀ value ∈ (Operation.mk opcode args result node.op.descriptor none).uses,
      IsScoped header after value := by
    intro result value isUse
    exact areScoped value (by simpa [Operation.uses, Operation.failArgs] using isUse)
  refine (ensures_lowerResult graph signature type part args after).bind
    fun result recorded holds => ?_
  rcases holds with
    ⟨rfl, noResult, rfl⟩ | ⟨types, shape, lanes, isResult, _, rfl, rfl, records⟩
  · refine ⟨{ sound.emitVoid (uses none) rfl with }, ⟨⟨[_], Array.toList_push⟩, fun _ => id⟩,
      fun member isMember box isResult => ?_⟩
    rw [void noResult member isMember] at isResult
    cases isResult
  have emitted := sound.emit (uses (some ⟨after.supply.next, .vector shape⟩)) rfl
    (Opcode.resultClass_of_vectorSignature? isSignature (isResult ▸ Option.some_ne_none _))
  have inScope : ∀ (box : Box) lane, lanes[box]? = some lane →
      lane.vector.toBox ∈ scope header { after with
        supply := ⟨after.supply.next + 1⟩
        output := after.output.push ⟨opcode, args, some ⟨after.supply.next, .vector shape⟩,
          node.op.descriptor, none⟩ } := by
    intro box lane held
    change _ ∈ scope header { after with output := after.output.push _ }
    rw [scope_push]
    rcases records box with ⟨_, isKept⟩ | ⟨_, _, _, _, isLane⟩
    · exact mem_append_left _ (sound.lanes box lane (isKept ▸ held))
    · cases isLane.symm.trans held
      exact mem_append_right _ mem_cons_self
  exact ⟨emitted.held inScope _, ⟨⟨[_], Array.toList_push⟩, fun _ => records.isSome_of_isSome⟩,
    fun _ isMember _ => records.isSome_of_result isMember⟩

/-! ## Packs -/

theorem mem_parts {part : List Nat} (isPart : part ∈ parts length members) :
    part ≠ [] ∧ ∀ member ∈ part, member ∈ members := by
  fun_induction parts length members with
  | case1 => cases isPart
  | case2 first rest ih =>
    rcases mem_cons.mp isPart with rfl | isPart
    · refine ⟨cons_ne_nil _ _, fun member isMember => ?_⟩
      rcases mem_cons.mp isMember with rfl | isMember
      · exact mem_cons_self
      · exact mem_cons_of_mem _ (mem_of_mem_take isMember)
    · exact ⟨(ih isPart).1, fun member isMember =>
        mem_cons_of_mem _ (mem_of_mem_drop ((ih isPart).2 member isMember))⟩

theorem exists_part {member : Nat} (isMember : member ∈ members) :
    ∃ part ∈ parts length members, member ∈ part := by
  fun_induction parts length members with
  | case1 => cases isMember
  | case2 first rest ih =>
    rcases mem_cons.mp isMember with rfl | isMember
    · exact ⟨_, mem_cons_self, mem_cons_self⟩
    rw [← take_append_drop (length - 1) rest] at isMember
    rcases mem_append.mp isMember with isTaken | isDropped
    · exact ⟨_, mem_cons_self, mem_cons_of_mem _ isTaken⟩
    · obtain ⟨part, isPart, inPart⟩ := ih isDropped
      exact ⟨part, mem_cons_of_mem _ isPart, inPart⟩

/-- A pack whose operands can be read is lowered to operations in scope, and afterwards lanes hold
the results of its members. -/
theorem lowers_lowerPack {pack : Pack} (readable : CanRead header graph pack.members lowering)
    (alike : ∀ member ∈ pack.members, (graph.op member).opcode = (graph.op pack.first).opcode)
    (tidy : ∀ member ∈ pack.members, (graph.op member).IsTidy header) :
    Lowers header bound made (lowerPack graph pack) lowering fun lowered after =>
      lowered.members = pack.members ∧ HoldsResults graph pack.members after := by
  refine .bind_get (Lowers.bind_lift fun node fetched => ?_)
  have isNode : node.op = graph.op pack.first :=
    congrArg Node.op (fetch_eq_ok fetched)
  dsimp only
  split
  next opcode isForm =>
    have isForm := Target.isForm _ isForm
    rw [isNode] at isForm
    split
    next signature isSignature =>
      refine .bind_lift fun type _ => ?_
      refine (Lowers.forM (motive := fun part after => HoldsResults graph part after)
        (fun _ _ _ longer holds => holds.mono longer) fun part isPart after longer => ?_).bind
        fun _ after _ _ holds => Lowers.pure ⟨rfl, fun member isMember => ?_⟩
      · obtain ⟨notEmpty, subset⟩ := mem_parts isPart
        refine lowers_lowerPart isSignature notEmpty (fun member isMember =>
          (readable.mono longer) member (subset member isMember)) fun noResult member isMember => ?_
        refine (tidy member (subset member isMember)).void ?_
        rw [alike member (subset member isMember)]
        exact Opcode.void_of_vectorSignature? isForm isSignature noResult
      · obtain ⟨part, isPart, inPart⟩ := exists_part isMember
        exact holds part isPart member inPart
    · exact fun _ => trivial
  · exact fun _ => trivial

/-! ## Operations that stay scalar -/

theorem lowers_scalars {values : List Value}
    (readable : ∀ value ∈ values, IsReadable header lowering value) :
    Lowers header bound made (values.mapM scalar) lowering fun results after =>
      ∀ value ∈ results, IsScoped header after value :=
  (Lowers.mapM (motive := fun value after => IsScoped header after value)
    (fun _ _ _ longer isScoped => isScoped.mono longer) fun value isValue _ longer =>
      lowers_scalar ((readable value isValue).mono longer)).weaken fun _ _ _ holds => holds.2

theorem lowers_renameWith {snapshot : Snapshot}
    (readable : ∀ value ∈ snapshot.values, IsReadable header lowering value) :
    Lowers header bound made (snapshot.renameWith scalar) lowering fun renamed after =>
      (∀ value ∈ renamed.snapshot.values, IsScoped header after value) ∧
        (renamed.innermostCopied = false → renamed.snapshot = snapshot) := by
  induction snapshot generalizing lowering with
  | root frame =>
    refine (lowers_scalars readable).bind fun renamed after _ _ isScoped => ?_
    refine .ite (fun same => Lowers.pure ⟨?_, fun _ => rfl⟩)
      fun _ => Lowers.pure ⟨isScoped, fun copied => by cases copied⟩
    rw [← same]
    exact isScoped
  | nested frame outer ih =>
    refine (ih fun value member => readable value (mem_append_right _ member)).bind
      fun renamedOuter after longer _ outerHolds => ?_
    refine (lowers_scalars fun value member =>
      (readable value (mem_append_left _ member)).mono longer).bind
      fun renamed ended further _ isScoped => ?_
    have outerScoped : ∀ value ∈ renamedOuter.snapshot.values, IsScoped header ended value :=
      fun value member => (outerHolds.1 value member).mono further
    refine .ite (fun _ => Lowers.pure ⟨fun value member => ?_, fun copied => by cases copied⟩)
      fun unchanged => Lowers.pure ⟨fun value member => ?_, fun _ => rfl⟩
    · exact (mem_append.mp member).elim (isScoped value) (outerScoped value)
    -- Nothing changed here, so the outer frames were not copied either.
    simp only [Bool.or_eq_true, decide_eq_true_eq, not_or, Bool.not_eq_true,
      Decidable.not_not] at unchanged
    rw [outerHolds.2 unchanged.1] at outerScoped
    rw [unchanged.2] at isScoped
    exact (mem_append.mp member).elim (isScoped value) (outerScoped value)

/-- An operation whose operands and snapshot can be read becomes the same operation on values in
scope. -/
theorem lowers_lowerScalar (readable : ∀ value ∈ op.uses, IsReadable header lowering value) :
    Lowers header bound made (lowerScalar op) lowering fun lowered after =>
      lowered.opcode = op.opcode ∧ lowered.result = op.result ∧
        ∀ value ∈ lowered.uses, IsScoped header after value := by
  refine (lowers_scalars fun value isArg => readable value (mem_append_left _ isArg)).bind
    fun args after longer _ areArgs => ?_
  have renamed : Lowers header bound made (op.snapshot.mapM fun snapshot => do
      return (← snapshot.renameWith scalar).snapshot) after fun snapshot ended =>
        ∀ found ∈ snapshot, ∀ value ∈ found.values, IsScoped header ended value := by
    cases isSnapshot : op.snapshot with
    | none => exact .pure fun _ isFound => nomatch isFound
    | some snapshot =>
      refine .bind (motive := fun (found : Snapshot) ended =>
        ∀ value ∈ found.values, IsScoped header ended value)
        (Lowers.bind (lowers_renameWith fun value member => ?_)
          fun _ _ _ _ holds => Lowers.pure holds.1)
        fun _ _ _ _ holds => Lowers.pure fun found isFound => ?_
      · have isFailArg : value ∈ op.failArgs := by
          unfold Operation.failArgs
          rw [isSnapshot]
          exact member
        exact (readable value (mem_append_right _ isFailArg)).mono longer
      · cases isFound
        exact holds
  refine renamed.bind fun snapshot ended further _ areScoped => Lowers.pure ⟨rfl, rfl, ?_⟩
  intro value isUse
  rcases mem_append.mp isUse with isArg | isFailArg
  · exact (areArgs value isArg).mono further
  · cases snapshot with
    | none => cases isFailArg
    | some snapshot => exact areScoped snapshot rfl value isFailArg

end Lowering

end LinearTrace
