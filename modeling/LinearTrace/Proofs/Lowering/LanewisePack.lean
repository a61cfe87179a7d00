import LinearTrace.Proofs.Lowering.LaneValues

/-!
# Packs that are computed lane by lane

A pack of operations that read none of each other's results is lowered chunk by chunk, and every
chunk becomes one vector operation whose lanes hold the results of its members, in order.
-/

namespace LinearTrace

open List Option DependencyGraph Work Std.HashMap

variable {position arity index member : Nat} {box : Box} {passesOffset : Bool} {value : Value}
  {opcode form : Opcode} {members : List Nat} {vectors : List VectorBox} {chunks : List (List Nat)}
  {operand : Value × Option Nat}

theorem DependencyGraph.fetch_of_lt {graph : DependencyGraph} (inGraph : position < graph.size) :
    graph.fetch position = .ok (graph.node position) := by
  have isNode : graph.nodes[position]? = some graph.nodes[position] :=
    Array.getElem?_eq_getElem inGraph
  unfold fetch node
  rw [Array.getD_eq_getD_getElem?, isNode]
  rfl

namespace Lowering

variable {α : Type} {arithmetic : Arithmetic α} {scalars : Box → α} {held : LaneValues α}
  {lowering before middle after : Lowering} {more further : List Operation}
  {graph : DependencyGraph} {signature : VectorSignature} {type : LaneType} {part : List Nat}

/-- The operations can be computed lane by lane: they have one code, read none of each other's
results, and define different boxes, whose values are what they compute. -/
structure IsLanewise (arithmetic : Arithmetic α) (scalars : Box → α) (graph : DependencyGraph)
    (opcode : Opcode) (arity : Nat) (members : List Nat) : Prop where
  inGraph : ∀ member ∈ members, member < graph.size
  opcode : ∀ member ∈ members, (graph.op member).opcode = opcode
  arity : ∀ member ∈ members, (graph.op member).args.length = arity
  independent : ∀ member ∈ members, ∀ other ∈ members, ∀ box ∈ (graph.op other).result,
    .box box ∉ (graph.op member).args
  distinct : (members.filterMap fun member => (graph.op member).result).Nodup
  defines : ∀ member ∈ members, arithmetic.Defines scalars (graph.op member)

theorem IsLanewise.sublist (lanewise : IsLanewise arithmetic scalars graph opcode arity members)
    (isPart : part.Sublist members) : IsLanewise arithmetic scalars graph opcode arity part where
  inGraph := fun member isMember => lanewise.inGraph member (isPart.subset isMember)
  opcode := fun member isMember => lanewise.opcode member (isPart.subset isMember)
  arity := fun member isMember => lanewise.arity member (isPart.subset isMember)
  independent := fun member isMember other isOther =>
    lanewise.independent member (isPart.subset isMember) other (isPart.subset isOther)
  distinct := lanewise.distinct.sublist (isPart.filterMap _)
  defines := fun member isMember => lanewise.defines member (isPart.subset isMember)

/-- The operands of the members are known. -/
def AreKnown (scalars : Box → α) (held : LaneValues α) (graph : DependencyGraph)
    (members : List Nat) (lowering : Lowering) : Prop :=
  ∀ member ∈ members, ∀ value ∈ (graph.op member).args, IsKnown scalars held lowering value

theorem AreKnown.mono (known : AreKnown scalars held graph part before)
    (routed : Routed arithmetic before after held more) :
    AreKnown scalars (arithmetic.run held more) graph part after :=
  fun member isMember value isArg => (known member isMember value isArg).mono routed

/-! ## Operands -/

/-- The lanes of an operand, from the lane beside it on, hold the operands of the members at a
position. -/
def HoldsColumn (arithmetic : Arithmetic α) (scalars : Box → α) (graph : DependencyGraph)
    (part : List Nat) (passesOffset : Bool) (position : Nat) (operand : Value × Option Nat)
    (lowering : Lowering) (held : LaneValues α) : Prop :=
  ∃ start values, operand.2 = some start ∧ start < 2 ^ 63 ∧ (passesOffset = false → start = 0) ∧
    Holds arithmetic scalars held lowering operand.1 start values ∧
    List.Forall₂ (fun member value => (graph.op member).args[position]? = some value) part values

theorem HoldsColumn.mono
    (holds : HoldsColumn arithmetic scalars graph part passesOffset position operand before held)
    (routed : Routed arithmetic before after held more) :
    HoldsColumn arithmetic scalars graph part passesOffset position operand after
      (arithmetic.run held more) := by
  obtain ⟨start, values, isStart, fits, noOffset, holds, areValues⟩ := holds
  exact ⟨start, values, isStart, fits, noOffset, holds.mono routed, areValues⟩

theorem HoldsColumn.lane
    (holds : HoldsColumn arithmetic scalars graph part passesOffset position operand lowering held)
    (isMember : part[index]? = some member) (isArg : (graph.op member).args[position]? = some value)
    :
    ∃ start, operand.2 = some start ∧ start < 2 ^ 63 ∧ (passesOffset = false → start = 0) ∧
      arithmetic.lane held operand.1 (start + index) = some (arithmetic.value scalars value) := by
  obtain ⟨start, values, isStart, fits, noOffset, holds, areValues⟩ := holds
  refine ⟨start, isStart, fits, noOffset, holds.lane index value ?_⟩
  obtain ⟨within, _⟩ := List.getElem?_eq_some_iff.mp isMember
  have isValue := getElem?_eq_getElem (l := values) (areValues.length_eq ▸ within)
  rw [isValue, ← isArg]
  exact (getElem?_of_forall₂ areValues isMember isValue).symm

theorem routes_lowerOperand (notEmpty : part ≠ []) (fits : part.length < 2 ^ 63)
    (inGraph : ∀ member ∈ part, member < graph.size)
    (known : AreKnown scalars held graph part lowering)
    (hasArg : ∀ member ∈ part, position < (graph.op member).args.length)
    (isVector : (signature.operandAt position).isSome) (value : Value) :
    Routes arithmetic scalars (lowerOperand graph signature type part value position) lowering held
      fun operand after later => HoldsColumn arithmetic scalars graph part signature.passesOffset
        position operand after later := by
  obtain ⟨lanes, isLanes⟩ := isSome_iff_exists.mp isVector
  unfold lowerOperand
  rw [isLanes]
  refine (Routes.mapM (motive := fun member value _ _ =>
    (graph.op member).args[position]? = some value) (fun _ _ _ _ _ _ _ => id)
    fun member isMember middle more _ => ?_).bind fun values middle more routed areValues => ?_
  · refine Routes.bind (motive := fun node _ _ => node = graph.node member)
      (Routes.lift (fetch_of_lt (inGraph member isMember)) rfl)
      fun node after further _ isNode => ?_
    subst isNode
    have isArg := getElem?_eq_getElem (hasArg member isMember)
    refine Routes.lift ?_ isArg
    rw [Operation.arg, show (graph.node member).op.args[position]? = _ from isArg]
  have length : part.length = values.length := areValues.length_eq
  have someValues : values ≠ [] := by
    rintro rfl
    exact notEmpty (length_eq_zero_iff.mp length)
  refine (routes_vectorOperand someValues (fun value isValue => ?_) (length ▸ fits) _ _).bind
    fun operand after further _ holds => Routes.pure ?_
  · obtain ⟨index, isIndex⟩ := getElem?_of_mem isValue
    obtain ⟨within, _⟩ := List.getElem?_eq_some_iff.mp isIndex
    have isMember : part[index]? = some part[index] :=
      getElem?_eq_getElem (length ▸ within)
    exact (known _ (mem_of_getElem? isMember) value
      (mem_of_getElem? (getElem?_of_forall₂ areValues isMember isIndex))).mono routed
  · exact ⟨operand.2, values, rfl, holds.2.1, holds.2.2, holds.1, areValues⟩

/-! ## Results -/

theorem exists_recordLanes (vector : VectorBox) (position : Nat)
    (inGraph : ∀ member ∈ part, member < graph.size) (lowering : Lowering) :
    ∃ after, recordLanes graph vector position part lowering = .ok () after := by
  induction part generalizing position lowering with
  | nil => exact ⟨lowering, rfl⟩
  | cons member rest ih =>
    have restInGraph : ∀ other ∈ rest, other < graph.size :=
      fun other isOther => inGraph other (mem_cons_of_mem _ isOther)
    unfold recordLanes
    rw [Work.bind_of_ok (Work.lift_of_ok (fetch_of_lt (inGraph member mem_cons_self)) lowering)]
    cases (graph.node member).op.result with
    | none => exact ih (position + 1) restInGraph lowering
    | some result => exact ih (position + 1) restInGraph _

theorem exists_lowerResult (isForm : Opcode.IsLaneForm opcode arity form signature)
    (inGraph : ∀ member ∈ part, member < graph.size) (type : LaneType) (args : List Value)
    (lowering : Lowering) :
    ∃ vector lanes, vector.id = lowering.supply.next ∧
      lowerResult graph signature type part args lowering = .ok (some vector)
          { lowering with supply := ⟨lowering.supply.next + 1⟩, lanes := lanes } ∧
      Records graph vector 0 part lowering.lanes lanes := by
  obtain ⟨result, isResult⟩ := isSome_iff_exists.mp isForm.result
  let shape := (resolvedLanes signature type result).shape part.length
  have isShape : resultShape signature shape args = .ok shape := by
    unfold resultShape
    rw [isForm.fixedSize]
  have isFresh : freshVector shape lowering = .ok ⟨lowering.supply.next, shape⟩
      { lowering with supply := ⟨lowering.supply.next + 1⟩ } := rfl
  obtain ⟨after, isRecorded⟩ := exists_recordLanes ⟨lowering.supply.next, shape⟩ 0 inGraph
    { lowering with supply := ⟨lowering.supply.next + 1⟩ }
  obtain ⟨lanes, rfl, records⟩ := (ensures_recordLanes graph _ 0 part _).of_ok isRecorded
  refine ⟨⟨lowering.supply.next, shape⟩, lanes, rfl, ?_, records⟩
  unfold lowerResult
  rw [isResult]
  dsimp only
  rw [bind_of_ok (lift_of_ok isShape lowering), bind_of_ok isFresh, bind_of_ok isRecorded]
  rfl

/-- Where no two members have one result, the lane of a result is at the position of its member. -/
theorem Records.getElem? {vector : VectorBox} {lanes further : Std.HashMap Box Lane}
    (records : Records graph vector position part lanes further)
    (distinct : (part.filterMap fun member => (graph.op member).result).Nodup)
    (isMember : part[index]? = some member) (isResult : (graph.op member).result = some box) :
    further[box]? = some ⟨position + index, vector⟩ := by
  rcases records box with ⟨notResult, _⟩ | ⟨found, other, isOther, isOwn, isLane⟩
  · exact absurd isResult (notResult member (mem_of_getElem? isMember))
  obtain ⟨inPart, rfl⟩ := List.getElem?_eq_some_iff.mp isMember
  obtain ⟨otherInPart, rfl⟩ := List.getElem?_eq_some_iff.mp isOther
  have apart := pairwise_iff_getElem.mp (pairwise_filterMap.mp distinct)
  rcases Nat.lt_trichotomy index found with before | rfl | behind
  · exact absurd rfl (apart index found inPart otherInPart before box isResult box isOwn)
  · exact isLane
  · exact absurd rfl (apart found index otherInPart inPart behind box isOwn box isResult)

/-- The lanes of a vector hold the results of the members of a chunk, in order. -/
def IsHeldBy (graph : DependencyGraph) (lowering : Lowering) (chunk : List Nat)
    (vector : VectorBox) : Prop :=
  ∀ position member box, chunk[position]? = some member → (graph.op member).result = some box →
    lowering.lanes[box]? = some ⟨position, vector⟩

/-- The chunks were lowered: one operation was emitted for each of them besides those that move
lanes, and its result holds the results of the chunk. What older boxes hold has not changed, nor
have the lanes of other boxes. -/
structure Lowered (arithmetic : Arithmetic α) (graph : DependencyGraph) (form : Opcode)
    (before after : Lowering) (held : LaneValues α) (more : List Operation)
    (chunks : List (List Nat)) (vectors : List VectorBox) : Prop where
  output : after.output.toList = before.output.toList ++ more
  frame : ∀ box : Box, box.id < before.supply.next → arithmetic.run held more box = held box
  supply : before.supply.next ≤ after.supply.next
  once : UnpacksOnce before after
  elsewhere : ∀ box, (∀ member ∈ chunks.flatten, (graph.op member).result ≠ some box) →
    after.lanes[box]? = before.lanes[box]?
  holds : List.Forall₂ (IsHeldBy graph after) chunks vectors
  computes : List.Forall₂ (fun op (vector : VectorBox) => op.opcode = form ∧
    op.result = some vector.toBox) (more.filter fun op => op.opcode.isComputing) vectors

theorem Carries.hold (carries : Carries scalars held lowering) {vector : VectorBox}
    {lanes : Std.HashMap Box Lane} (fits : part.length ≤ 2 ^ 63)
    (records : Records graph vector 0 part lowering.lanes lanes)
    (isOld : vector.id < lowering.supply.next)
    (holds : ∀ index member box, part[index]? = some member →
      (graph.op member).result = some box → held vector.toBox index = some (scalars box))
    (vectorOps : Nat) :
    Carries scalars held { lowering with lanes := lanes, vectorOps := vectorOps } := by
  refine { carries with lanes := fun box lane isLane => ?_, vectors := fun box lane isLane => ?_ }
  all_goals
    rcases records box with ⟨_, isKept⟩ | ⟨index, member, isIndex, isBox, isNew⟩
  · exact carries.lanes box lane (isKept ▸ isLane)
  · cases isNew.symm.trans isLane
    rw [Nat.zero_add]
    exact holds index member box isIndex isBox
  · exact carries.vectors box lane (isKept ▸ isLane)
  · cases isNew.symm.trans isLane
    obtain ⟨within, _⟩ := List.getElem?_eq_some_iff.mp isIndex
    exact ⟨isOld, by dsimp only; omega⟩

/-! ## Chunks -/

theorem mapM_lane {operands args : List Value} (length : operands.length = args.length)
    (each : ∀ (index : Nat) operand value, operands[index]? = some operand →
      args[index]? = some value →
      arithmetic.lane held operand position = some (arithmetic.value scalars value)) :
    operands.mapM (fun operand => arithmetic.lane held operand position) =
      some (args.map (arithmetic.value scalars)) := by
  induction operands generalizing args with
  | nil =>
    rw [length_eq_zero_iff.mp length.symm]
    rfl
  | cons operand rest ih =>
    match args with
    | value :: others =>
      have areRest := ih (Nat.succ.inj length) fun index operand value isOperand isValue =>
        each (index + 1) operand value isOperand isValue
      rw [mapM_cons, each 0 operand value rfl rfl, areRest]
      rfl

theorem outcome_of_columns {first : List Value} {operands : List (Value × Option Nat)}
    (isForm : Opcode.IsLaneForm opcode arity form signature)
    (lanewise : IsLanewise arithmetic scalars graph opcode arity part) (fits : part.length < 2 ^ 63)
    (length : first.length = arity)
    (columns : List.Forall₂ (fun entry operand => HoldsColumn arithmetic scalars graph part
      signature.passesOffset entry.2 operand lowering held) first.zipIdx operands)
    (isMember : part[index]? = some member) (isResult : (graph.op member).result = some box) :
    arithmetic.outcome held form (operands.map Prod.fst
      ++ (if signature.passesOffset then [.count ((operands.filterMap Prod.snd).getLastD 0)] else [])
      ++ [.count part.length]) index = some (scalars box) := by
  obtain ⟨within, _⟩ := List.getElem?_eq_some_iff.mp isMember
  have inPart := mem_of_getElem? isMember
  have sameLength : operands.length = (graph.op member).args.length := by
    rw [← columns.length_eq, length_zipIdx, length, lanewise.arity member inPart]
  have column : ∀ (position : Nat) operand value, operands[position]? = some operand →
      (graph.op member).args[position]? = some value →
      ∃ start, operand.2 = some start ∧ start < 2 ^ 63 ∧
        (signature.passesOffset = false → start = 0) ∧ arithmetic.lane held operand.1
          (start + index) = some (arithmetic.value scalars value) := by
    intro position operand value isOperand isArg
    obtain ⟨inOperands, _⟩ := List.getElem?_eq_some_iff.mp isOperand
    have isEntry := getElem?_eq_getElem (l := first.zipIdx) (columns.length_eq ▸ inOperands)
    have holds := getElem?_of_forall₂ columns isEntry isOperand
    rw [getElem_zipIdx, Nat.zero_add] at holds
    exact holds.lane isMember isArg
  have isValue := lanewise.defines member inPart box isResult
  rw [lanewise.opcode member inPart] at isValue
  rw [isValue]
  rcases isForm.action with ⟨noOffset, isAction⟩ | ⟨passesOffset, isSingle, isAction⟩
  · rw [noOffset, if_neg Bool.false_ne_true, append_nil]
    refine Arithmetic.outcome_compute isAction fits within (mapM_lane (by simpa) ?_)
    intro position operand value isOperand isArg
    rw [getElem?_map] at isOperand
    obtain ⟨entry, isEntry, rfl⟩ := map_eq_some_iff.mp isOperand
    obtain ⟨start, _, _, isZero, isLane⟩ := column position entry value isEntry isArg
    rwa [isZero noOffset, Nat.zero_add] at isLane
  · have single := lanewise.arity member inPart
    rw [isSingle] at single
    obtain ⟨value, isArgs⟩ := length_eq_one_iff.mp single
    rw [single] at sameLength
    obtain ⟨operand, rfl⟩ := length_eq_one_iff.mp sameLength
    obtain ⟨start, isStart, startFits, _, isLane⟩ := column 0 operand value rfl (by rw [isArgs]; rfl)
    rw [passesOffset, if_pos rfl, isArgs]
    have isOffset : ([operand].filterMap Prod.snd).getLastD 0 = start := by
      simp [isStart]
    rw [isOffset]
    exact Arithmetic.outcome_computeFrom isAction startFits fits within isLane

section

variable (isForm : Opcode.IsLaneForm opcode arity form signature) (type : LaneType)
  (notEmpty : part ≠ []) (fits : part.length < 2 ^ 63)
  (lanewise : IsLanewise arithmetic scalars graph opcode arity part)
  (known : AreKnown scalars held graph part lowering)

include isForm notEmpty fits lanewise known

/-- The operands of a member become vectors that hold those of all members. -/
theorem routes_lowerOperands (isMember : member ∈ part) :
    Routes arithmetic scalars ((graph.op member).args.zipIdx.mapM
      fun entry => lowerOperand graph signature type part entry.1 entry.2) lowering held
      fun operands after later => List.Forall₂ (fun entry operand => HoldsColumn arithmetic scalars
        graph part signature.passesOffset entry.2 operand after later)
        (graph.op member).args.zipIdx operands := by
  refine Routes.mapM (fun _ _ _ _ _ _ routed holds => holds.mono routed)
    fun entry isEntry middle more routed => ?_
  have inArgs := (mem_zipIdx isEntry).2.1
  rw [Nat.zero_add, lanewise.arity _ isMember] at inArgs
  refine routes_lowerOperand notEmpty fits lanewise.inGraph (known.mono routed)
    (fun other isOther => ?_) (isForm.operands entry.2 inArgs) entry.1
  rw [lanewise.arity other isOther]
  exact inArgs

/-- A chunk whose operands are known becomes one vector operation that holds its results. -/
theorem exists_lowerPart (carries : Carries scalars held lowering) :
    ∃ after more vector, lowerPart graph form signature type part lowering = .ok () after ∧
      Carries scalars (arithmetic.run held more) after ∧
      Lowered arithmetic graph form lowering after held more [part] [vector] := by
  have isFirst : part.headD 0 ∈ part := by
    cases part with
    | nil => exact absurd rfl notEmpty
    | cons first rest => exact mem_cons_self
  have fetched := lift_of_ok (fetch_of_lt (lanewise.inGraph _ isFirst)) lowering
  obtain ⟨operands, middle, more, areOperands, routed, stillCarries, columns⟩ :=
    routes_lowerOperands isForm type notEmpty fits lanewise known isFirst carries
  let args := operands.map Prod.fst
    ++ (if signature.passesOffset then [.count ((operands.filterMap Prod.snd).getLastD 0)] else [])
    ++ [.count part.length]
  obtain ⟨vector, lanes, isNext, isLowered, records⟩ := exists_lowerResult isForm
    lanewise.inGraph type args middle
  let op : Operation :=
    { opcode := form, args := args, result := some vector.toBox,
      descriptor := (graph.op (part.headD 0)).descriptor }
  have isResult : op.result = some ⟨middle.supply.next, .vector vector.shape⟩ := by
    rw [← isNext]
    rfl
  refine ⟨{ emitted middle op with lanes := lanes, vectorOps := middle.vectorOps + 1 }, more ++ [op],
    vector, ?_, ?_, ?_⟩
  · unfold lowerPart
    rw [bind_of_ok fetched]
    refine (bind_of_ok areOperands).trans ?_
    refine (bind_of_ok isLowered).trans ?_
    rfl
  · rw [arithmetic.run_append]
    refine (stillCarries.emit arithmetic isResult).hold (Nat.le_of_lt fits) records ?_ ?_ _
    · rw [isNext]
      exact Nat.lt_succ_self _
    · intro index member box isMember isBox
      rw [arithmetic.run_result _ op rfl]
      exact outcome_of_columns isForm lanewise fits (lanewise.arity _ isFirst) columns isMember isBox
  have isComputing : form.isComputing = true := by
    rcases isForm.action with ⟨_, isAction⟩ | ⟨_, _, isAction⟩ <;>
      exact isComputing_of_laneAction? isAction
  refine {
    output := ?_
    frame := fun box isOld => ?_
    supply := Nat.le_succ_of_le routed.supply
    once := routed.once.trans (.of_eq rfl rfl)
    elsewhere := fun box notResult => ?_
    holds := .cons (fun index member box isMember isBox => ?_) .nil
    computes := ?_ }
  · change (middle.output.push op).toList = _
    rw [Array.toList_push, routed.output, append_assoc]
  · rw [arithmetic.run_append, run_old isResult (Nat.lt_of_lt_of_le isOld routed.supply),
      routed.frame box isOld]
  · rw [flatten_singleton] at notResult
    rw [← routed.lanes]
    rcases records box with ⟨_, isKept⟩ | ⟨_, member, isMember, isBox, _⟩
    · exact isKept
    · exact absurd isBox (notResult member (mem_of_getElem? isMember))
  · rw [← Nat.zero_add index]
    exact records.getElem? lanewise.distinct isMember isBox
  · have movesOnly : more.filter (fun op => op.opcode.isComputing) = [] :=
      filter_eq_nil_iff.mpr fun op member => by simp [routed.moves op member]
    rw [filter_append, movesOnly, nil_append,
      filter_cons_of_pos (p := fun op : Operation => op.opcode.isComputing) isComputing]
    exact .cons ⟨rfl, rfl⟩ .nil

end

theorem AreKnown.lowered (known : AreKnown scalars held graph members before)
    (lowered : Lowered arithmetic graph form before after held more chunks vectors)
    (independent : ∀ member ∈ members, ∀ other ∈ chunks.flatten, ∀ box ∈ (graph.op other).result,
      .box box ∉ (graph.op member).args) :
    AreKnown scalars (arithmetic.run held more) graph members after := by
  intro member isMember value isArg
  refine (known member isMember value isArg).of_kept (fun box isBox => ?_) lowered.frame
    lowered.supply lowered.once
  refine lowered.elsewhere box fun other isOther isResult => ?_
  refine independent member isMember other isOther box isResult ?_
  cases value with
  | const literal => cases isBox
  | box source =>
    cases isBox
    exact isArg

theorem Lowered.cons {chunk : List Nat} {vector : VectorBox}
    (first : Lowered arithmetic graph form before middle held more [chunk] [vector])
    (rest : Lowered arithmetic graph form middle after (arithmetic.run held more) further chunks
      vectors)
    (distinct : ∀ member ∈ chunk, ∀ other ∈ chunks.flatten, ∀ box ∈ (graph.op member).result,
      (graph.op other).result ≠ some box) :
    Lowered arithmetic graph form before after held (more ++ further) (chunk :: chunks)
      (vector :: vectors) where
  output := by rw [rest.output, first.output, append_assoc]
  frame := fun box isOld => by
    rw [arithmetic.run_append, rest.frame box (Nat.lt_of_lt_of_le isOld first.supply),
      first.frame box isOld]
  supply := Nat.le_trans first.supply rest.supply
  once := first.once.trans rest.once
  elsewhere := fun box notResult => by
    rw [flatten_cons] at notResult
    rw [rest.elsewhere box fun member isMember =>
        notResult member (mem_append_right _ isMember),
      first.elsewhere box fun member isMember => notResult member (mem_append_left _ ?_)]
    rwa [flatten_singleton] at isMember
  holds := by
    refine .cons (fun position member box isMember isResult => ?_) rest.holds
    rw [rest.elsewhere box fun other isOther =>
      distinct member (mem_of_getElem? isMember) other isOther box isResult]
    exact (forall₂_cons.mp first.holds).1 position member box isMember isResult
  computes := by
    rw [filter_append]
    exact rel_append first.computes rest.computes

theorem exists_lowerParts (isForm : Opcode.IsLaneForm opcode arity form signature) (type : LaneType)
    (notEmpty : ∀ chunk ∈ chunks, chunk ≠ []) (fits : chunks.flatten.length < 2 ^ 63)
    (lanewise : IsLanewise arithmetic scalars graph opcode arity chunks.flatten)
    (known : AreKnown scalars held graph chunks.flatten lowering)
    (carries : Carries scalars held lowering) :
    ∃ after more vectors, chunks.forM (lowerPart graph form signature type) lowering =
        .ok () after ∧ Carries scalars (arithmetic.run held more) after ∧
      Lowered arithmetic graph form lowering after held more chunks vectors := by
  induction chunks generalizing lowering held with
  | nil =>
    refine ⟨lowering, [], [], rfl, carries, ?_⟩
    exact ⟨(append_nil _).symm, fun _ _ => rfl, Nat.le_refl _, .of_eq rfl rfl,
      fun _ _ => rfl, .nil, .nil⟩
  | cons chunk rest ih =>
    rw [flatten_cons] at fits lanewise known
    rw [length_append] at fits
    obtain ⟨middle, more, vector, isFirst, stillCarries, first⟩ := exists_lowerPart isForm type
      (notEmpty chunk mem_cons_self) (by omega) (lanewise.sublist (sublist_append_left _ _))
      (fun member isMember => known member (mem_append_left _ isMember)) carries
    have restKnown : AreKnown scalars held graph rest.flatten lowering :=
      fun member isMember => known member (mem_append_right _ isMember)
    obtain ⟨after, further, vectors, isRest, finallyCarries, others⟩ := ih
      (fun other isOther => notEmpty other (mem_cons_of_mem _ isOther)) (by omega)
      (lanewise.sublist (sublist_append_right _ _))
      (restKnown.lowered first fun member isMember other isOther =>
        lanewise.independent member (mem_append_right _ isMember) other
          (mem_append_left _ (by rwa [flatten_singleton] at isOther))) stillCarries
    refine ⟨after, more ++ further, vector :: vectors, ?_, ?_, first.cons others ?_⟩
    · change (lowerPart graph form signature type chunk >>= fun _ =>
        rest.forM (lowerPart graph form signature type)) lowering = _
      rw [bind_of_ok isFirst, isRest]
    · rw [arithmetic.run_append]
      exact finallyCarries
    · have distinct := lanewise.distinct
      rw [filterMap_append, nodup_append] at distinct
      intro member isMember other isOther box isBox isSame
      exact distinct.2.2 box (mem_filterMap.mpr ⟨member, isMember, isBox⟩) box
        (mem_filterMap.mpr ⟨other, isOther, isSame⟩) rfl

theorem flatten_parts (length : Nat) (members : List Nat) :
    (parts length members).flatten = members := by
  fun_induction parts length members with
  | case1 => rfl
  | case2 first rest ih => rw [flatten_cons, ih, cons_append, take_append_drop]

theorem exists_laneType {pack : Pack} (inGraph : pack.first < graph.size)
    (signature : VectorSignature) (lowering : Lowering) :
    ∃ type, lowering.laneType pack graph signature = .ok type := by
  unfold laneType
  split
  · exact ⟨_, rfl⟩
  · rw [fetch_of_lt inGraph]
    exact ⟨_, rfl⟩

end Lowering

/-- The members of the pack are alike and independent of each other, and they have a vector form
that computes them lane by lane. -/
structure Pack.IsLanewise (graph : DependencyGraph) (target : Target) (pack : Pack) : Prop where
  inGraph : ∀ member ∈ pack.members, member < graph.size
  fits : pack.size < 2 ^ 63
  arity : (graph.op pack.first).opcode.laneArity? = some (graph.op pack.first).args.length
  hasForm : (target.vectorForm? (graph.op pack.first).opcode).isSome
  isomorphic : ∀ member ∈ pack.members,
    PackSet.isomorphic (graph.op pack.first) (graph.op member) = true
  independent : ∀ member ∈ pack.members, ∀ other ∈ pack.members,
    ∀ box ∈ (graph.op other).result, .box box ∉ (graph.op member).args
  distinct : (pack.members.filterMap fun member => (graph.op member).result).Nodup

namespace Lowering

variable {α : Type} {arithmetic : Arithmetic α} {scalars : Box → α} {held : LaneValues α}
  {lowering : Lowering} {graph : DependencyGraph} {pack : Pack}

theorem isLanewise_of_pack (lanewise : pack.IsLanewise graph lowering.target)
    (defines : ∀ member ∈ pack.members, arithmetic.Defines scalars (graph.op member)) :
    IsLanewise arithmetic scalars graph (graph.op pack.first).opcode
      (graph.op pack.first).args.length pack.members := by
  have alike : ∀ member ∈ pack.members,
      (graph.op member).opcode = (graph.op pack.first).opcode ∧
        (graph.op member).args.length = (graph.op pack.first).args.length := by
    intro member isMember
    have same := lanewise.isomorphic member isMember
    simp only [PackSet.isomorphic, Bool.and_eq_true, beq_iff_eq] at same
    exact ⟨same.1.1.symm, same.2.symm⟩
  exact {
    inGraph := lanewise.inGraph
    opcode := fun member isMember => (alike member isMember).1
    arity := fun member isMember => (alike member isMember).2
    independent := lanewise.independent
    distinct := lanewise.distinct
    defines := defines }

theorem lowerPack_of_parts {signature : VectorSignature} {type : LaneType} {after : Lowering}
    (inGraph : pack.first < graph.size)
    (isForm : lowering.target.vectorForm? (graph.op pack.first).opcode = some opcode)
    (isSignature : opcode.vectorSignature? = some signature)
    (isType : lowering.laneType pack graph signature = .ok type)
    (areLowered : (parts (lanesPerPart { pack with laneType := some type } type
      lowering.registerSize) pack.members).forM (lowerPart graph opcode signature type) lowering =
        .ok () after) :
    lowerPack graph pack lowering = .ok { pack with laneType := some type } after := by
  have fetched := lift_of_ok (fetch_of_lt inGraph) lowering
  have isForm : lowering.target.vectorForm? (graph.node pack.first).op.opcode = some opcode := isForm
  change (liftM (graph.fetch pack.first) >>= _ : LoweringM Pack) lowering = _
  rw [bind_of_ok fetched, isForm]
  dsimp only
  rw [isSignature]
  dsimp only
  rw [bind_of_ok (lift_of_ok isType lowering)]
  exact (bind_of_ok areLowered).trans rfl

/-- A pack of operations that are computed lane by lane is lowered, whatever the register size, so
that every lane and every copy again holds the value of its scalar box. The chunks are the members
in order, and each becomes one vector operation whose lanes are remembered for its members. The
scalar form of a known value holds the value, and no box is unpacked twice. -/
theorem carries_lowerPack (arithmetic : Arithmetic α) (scalars : Box → α) (held : LaneValues α)
    (lanewise : pack.IsLanewise graph lowering.target)
    (defines : ∀ member ∈ pack.members, arithmetic.Defines scalars (graph.op member))
    (known : ∀ member ∈ pack.members, ∀ value ∈ (graph.op member).args,
      (∀ box ∈ value.box?, ∀ other ∈ pack.members, (graph.op other).result ≠ some box) →
      IsKnown scalars held lowering value)
    (carries : Carries scalars held lowering) :
    (∃ type form chunks after more vectors,
      lowerPack graph pack lowering = .ok { pack with laneType := some type } after ∧
        lowering.target.vectorForm? (graph.op pack.first).opcode = some form ∧
        chunks = parts (lanesPerPart { pack with laneType := some type } type
          lowering.registerSize) pack.members ∧
        chunks.flatten = pack.members ∧ (∀ chunk ∈ chunks, chunk ≠ []) ∧
        Lowered arithmetic graph form lowering after held more chunks vectors ∧
        Carries scalars (arithmetic.run held more) after) ∧
      ∀ value, IsKnown scalars held lowering value →
        ∃ operand after more, scalar value lowering = .ok operand after ∧
          after.output.toList = lowering.output.toList ++ more ∧
          Carries scalars (arithmetic.run held more) after ∧
          arithmetic.lane (arithmetic.run held more) operand 0 =
            some (arithmetic.value scalars value) ∧
          ReadsScalar value lowering after more ∧ UnpacksOnce lowering after := by
  refine ⟨?_, fun value isKnown => ?_⟩
  · obtain ⟨form, isForm⟩ := Option.isSome_iff_exists.mp lanewise.hasForm
    obtain ⟨signature, isSignature, isLaneForm⟩ := Opcode.vectorSignature?_of_laneArity?
      lanewise.arity (Target.isForm _ isForm)
    have isFirst := lanewise.inGraph pack.first List.mem_cons_self
    obtain ⟨type, isType⟩ := exists_laneType isFirst signature lowering
    have isFlat := flatten_parts (lanesPerPart { pack with laneType := some type } type
      lowering.registerSize) pack.members
    have areChunks : ∀ chunk ∈ parts (lanesPerPart { pack with laneType := some type } type
      lowering.registerSize) pack.members, chunk ≠ [] := fun chunk isChunk => (mem_parts isChunk).1
    generalize isChunks : parts (lanesPerPart { pack with laneType := some type } type
      lowering.registerSize) pack.members = chunks at isFlat areChunks
    have areKnown : AreKnown scalars held graph pack.members lowering := by
      intro member isMember value isArg
      refine known member isMember value isArg fun box isBox other isOther isResult => ?_
      refine lanewise.independent member isMember other isOther box isResult ?_
      cases value with
      | const literal => cases isBox
      | box source =>
        cases isBox
        exact isArg
    obtain ⟨after, more, vectors, isLowered, stillCarries, areLowered⟩ := exists_lowerParts
      isLaneForm type areChunks (isFlat ▸ lanewise.fits)
      (isFlat ▸ isLanewise_of_pack lanewise defines) (isFlat ▸ areKnown) carries
    refine ⟨type, form, chunks, after, more, vectors, ?_, isForm, isChunks.symm, isFlat, areChunks,
      areLowered, stillCarries⟩
    rw [← isChunks] at isLowered
    exact lowerPack_of_parts isFirst isForm isSignature isType isLowered
  · obtain ⟨operand, after, more, isScalar, routed, stillCarries, holds, reads⟩ :=
      exists_scalar arithmetic isKnown carries
    exact ⟨operand, after, more, isScalar, routed.output, stillCarries, holds.lane 0 value rfl,
      reads, routed.once⟩

end Lowering

/-! ## Differences of lanes and scalars -/

namespace Differences

def int (id : Nat) : Box :=
  ⟨id, .int⟩

def difference (left right : Value) (result : Nat) : Node :=
  { op := { opcode := .intSub, args := [left, right], result := some (int result) } }

def graph : DependencyGraph where
  nodes := #[difference (.box (int 1)) (.box (int 4)) 10,
    difference (.box (int 2)) (.box (int 4)) 11, difference (.box (int 3)) (.int 7) 12,
    difference (.box (int 3)) (.box (int 4)) 13]

def pack : Pack :=
  { first := 0, rest := [1, 2, 3] }

/-- A vector that holds two of the operands. -/
def vector : VectorBox :=
  ⟨20, ⟨.int, 4, 4, true⟩⟩

/-- Three lanes of four bytes fit a register. -/
def lowering : Lowering where
  target := .sse
  registerSize := 12
  smallest := 4
  supply := ⟨30⟩
  lanes := ((∅ : Std.HashMap Box Lane).insert (int 1) ⟨1, vector⟩).insert (int 2) ⟨2, vector⟩

def arithmetic : Arithmetic Int where
  literal literal := (literal.int?.getD 0).toInt
  apply _ values := values.getD 0 0 - values.getD 1 0

def scalars (box : Box) : Int :=
  [0, 5, 8, 11, 2, 0, 0, 0, 0, 0, 3, 6, 4, 9].getD box.id 0

/-- Two operands are in the vector, the others in boxes of their own. -/
def held (box : Box) (position : Nat) : Option Int :=
  if box = vector.toBox then [none, some 5, some 8].getD position none
  else if position = 0 ∧ 3 ≤ box.id then some (scalars box) else none

theorem lanes_first : lowering.lanes[int 1]? = some ⟨1, vector⟩ := by
  unfold lowering
  rw [Std.HashMap.getElem?_insert, if_neg (by decide), Std.HashMap.getElem?_insert_self]

theorem lanes_second : lowering.lanes[int 2]? = some ⟨2, vector⟩ :=
  getElem?_insert_self

theorem lanes_eq_some {lane : Lane} (isLane : lowering.lanes[box]? = some lane) :
    box = int 1 ∧ lane = ⟨1, vector⟩ ∨ box = int 2 ∧ lane = ⟨2, vector⟩ := by
  simp only [lowering, Std.HashMap.getElem?_insert, Std.HashMap.getElem?_empty] at isLane
  split at isLane
  next isSecond => exact .inr ⟨(eq_of_beq isSecond).symm, (some.inj isLane).symm⟩
  split at isLane
  next isFirst => exact .inl ⟨(eq_of_beq isFirst).symm, (some.inj isLane).symm⟩
  · cases isLane

theorem carries_held : Lowering.Carries scalars held lowering := by
  have notUnpacked : ∀ box copy : Box, lowering.unpacked[box]? ≠ some copy := by
    intro box copy isCopy
    simp only [lowering, getElem?_empty] at isCopy
    cases isCopy
  refine ⟨fun box lane isLane => ?_, fun box lane isLane => ?_,
    fun box copy isCopy => absurd isCopy (notUnpacked box copy),
    fun box copy isCopy => absurd isCopy (notUnpacked box copy)⟩
  · rcases lanes_eq_some isLane with ⟨rfl, rfl⟩ | ⟨rfl, rfl⟩ <;> rfl
  · rcases lanes_eq_some isLane with ⟨rfl, rfl⟩ | ⟨rfl, rfl⟩ <;> decide

/-- Lanes, scalars and constants are gathered for a first chunk of three and spread for a second
chunk of one. -/
theorem carries_differences :
    ∃ lowered after more, Lowering.lowerPack graph pack lowering = .ok lowered after ∧
      Lowering.Carries scalars (arithmetic.run held more) after := by
  have isLanewise : pack.IsLanewise graph lowering.target :=
    ⟨by decide, by decide, rfl, rfl, by decide, by decide, by decide⟩
  have defines : ∀ member ∈ pack.members, arithmetic.Defines scalars (graph.op member) := by
    unfold Arithmetic.Defines
    decide
  have known : ∀ member ∈ pack.members, ∀ value ∈ (graph.op member).args,
      Lowering.IsKnown scalars held lowering value := by
    have operands : ∀ member ∈ pack.members, ∀ value ∈ (graph.op member).args,
        ∀ box ∈ value.box?, box = int 1 ∨ box = int 2 ∨
          held box 0 = some (scalars box) ∧ box.id < lowering.supply.next := by
      decide
    intro member isMember value isArg box isBox notHeld _
    rcases operands member isMember value isArg box isBox with rfl | rfl | isOwn
    · cases lanes_first.symm.trans notHeld
    · cases lanes_second.symm.trans notHeld
    · exact isOwn
  obtain ⟨⟨type, _, _, after, more, _, isLowered, _, _, _, _, _, stillCarries⟩, _⟩ :=
    Lowering.carries_lowerPack arithmetic scalars held isLanewise defines
      (fun member isMember value isArg _ => known member isMember value isArg) carries_held
  exact ⟨_, after, more, isLowered, stillCarries⟩

end Differences

end LinearTrace
