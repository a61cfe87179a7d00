import LinearTrace.Proofs.Lowering.FittingPack
import LinearTrace.Proofs.Vectorize.Collapse
import LinearTrace.Proofs.Vectorize.GuardOrder
import LinearTrace.Proofs.Vectorize.Packed
import LinearTrace.Proofs.Vectorize.Stages
import LinearTrace.Proofs.Vectorize.Unroll

/-!
# Vectorized loops fit a register

Up to the schedule the stages of the vectorizer only relax, copy and reorder operations, so the
operations that are scheduled fit a register like those of the loop.  Then every vector that is
emitted fits.  A sign extension to wider lanes does not, since a pack is cut into parts by the lanes
that it reads.
-/

namespace LinearTrace

open DependencyGraph PackSet List

variable {size : Nat} {stages : Stages} {state after : Vectorizer}

namespace Operation

variable {target : Target} {narrow : Nat} {op other : Operation}

theorem FitsRegister.of_alike (fits : op.FitsRegister target narrow)
    (opcode : other.opcode = op.opcode) (array : ∀ array ∈ other.array?, array ∈ op.array?)
    (result : other.result.map Box.type = op.result.map Box.type)
    (size : op.args[1]? = some (.count narrow) → other.args[1]? = some (.count narrow)) :
    other.FitsRegister target narrow where
  items found isFound := fits.items found (array found isFound)
  result box isBox shape isShape := by
    have isType := congrArg (Option.map Box.type) (Option.mem_def.mp isBox)
    rw [result] at isType
    obtain ⟨former, isFormer, sameType⟩ := Option.map_eq_some_iff.mp isType
    exact fits.result former isFormer shape (sameType.trans isShape)
  signExtension isForm := size (fits.signExtension (opcode ▸ isForm))
  cast form isForm isCast := by
    obtain ⟨noArray, wide, notSingle⟩ := fits.cast form (opcode ▸ isForm) isCast
    refine ⟨Option.eq_none_iff_forall_not_mem.mpr fun found isFound => ?_, wide, notSingle⟩
    cases noArray.symm.trans (array found isFound)

theorem fitsRegister_of_plain (plain : ∀ form ∈ op.opcode.vectorForm?,
      form ≠ .vecIntSignExtend ∧ form.isLaneCast = false)
    (items : ∀ array ∈ op.array?, (LaneType.ofArray array).isValid →
      IsLaneSize target.registerSize narrow array.itemSize)
    (result : ∀ box ∈ op.result, box.Fits target.registerSize) :
    op.FitsRegister target narrow where
  items := items
  result := result
  signExtension isForm := absurd rfl (plain _ (Target.isForm _ isForm)).1
  cast form isForm isCast := by
    cases isCast.symm.trans (plain form (Target.isForm _ isForm)).2

theorem LoosensTo.fitsRegister (loosens : op.LoosensTo other)
    (fits : op.FitsRegister target narrow) : other.FitsRegister target narrow := by
  refine fits.of_alike loosens.opcode_eq ?_ (congrArg _ loosens.result_eq) (loosens.args_eq ▸ id)
  rcases loosens with rfl | ⟨_, _, _, rfl⟩
  · exact fun _ => id
  · exact fun _ isNone => by cases isNone

end Operation

section

variable {target : Target} {narrow : Nat} {ops : List Operation}

/-! ## Copies -/

namespace Unrolling

variable {label jump : Operation} {body : List Operation}

theorem getElem?_map_rename (state : Unrolling) {args : List Value} {position : Nat}
    (isSize : args[position]? = some (.count size)) :
    (args.map state.rename)[position]? = some (.count size) := by
  rw [getElem?_map, isSize]
  rfl

theorem fitsRegister_copy (state : Unrolling) {op : Operation}
    (fits : op.FitsRegister target narrow) : (state.copy op).1.FitsRegister target narrow :=
  fits.of_alike rfl (fun _ => id) (state.copy_result_type op) state.getElem?_map_rename

theorem fitsRegister_copyAll (fits : ∀ op ∈ ops, op.FitsRegister target narrow)
    (state : Unrolling) : ∀ op ∈ (state.copyAll ops).1, op.FitsRegister target narrow := by
  induction ops generalizing state with
  | nil => exact fun _ member => nomatch member
  | cons first rest ih =>
    refine forall_mem_cons.mpr ⟨state.fitsRegister_copy (fits first mem_cons_self), ?_⟩
    exact ih (fun op member => fits op (mem_cons_of_mem _ member)) _

theorem fitsRegister_iterate (fits : ∀ op ∈ body, op.FitsRegister target narrow) (count : Nat)
    (state : Unrolling) :
    ∀ op ∈ (iterate label jump body count state).1, op.FitsRegister target narrow := by
  induction count generalizing state with
  | zero => exact fun _ member => nomatch member
  | succ count ih =>
    exact forall_mem_append.mpr ⟨fitsRegister_copyAll fits _, ih _⟩

theorem fitsRegister_unroll (fits : ∀ op ∈ ops, op.FitsRegister target narrow) (count : Nat)
    (supply : BoxSupply) : ∀ op ∈ (unroll ops count supply).1, op.FitsRegister target narrow := by
  unfold unroll
  split
  next label second rest =>
    have isFirst : label.FitsRegister target narrow := fits label mem_cons_self
    have inBody : ∀ op ∈ (second :: rest).dropLast, op.FitsRegister target narrow :=
      fun op member => fits op (mem_cons_of_mem _ (mem_of_mem_dropLast member))
    have isLast : ((second :: rest).getLastD second).FitsRegister target narrow := by
      rw [getLastD_cons]
      exact fits _ (mem_cons_of_mem _ getLastD_mem_cons)
    have isJump : (closingJump label ((second :: rest).getLastD second)).FitsRegister target
        narrow := by
      unfold closingJump
      split
      · exact Operation.fitsRegister_of_plain (fun _ isNone => by cases isNone) isFirst.items
          fun _ isNone => by cases isNone
      · exact isLast
    refine forall_mem_append.mpr ⟨forall_mem_append.mpr
      ⟨forall_mem_cons.mpr ⟨isFirst, inBody⟩, ?_⟩, forall_mem_singleton.mpr ?_⟩
    · exact fitsRegister_iterate (fun op member => inBody op (mem_of_mem_filter member)) count _
    · exact isJump.of_alike rfl (fun _ => id) rfl (getElem?_map_rename _)
  · exact fits

end Unrolling

/-! ## Graphs -/

theorem DependencyGraph.Lists.fitsRegister {graph : DependencyGraph} (lists : graph.Lists ops)
    (fits : ∀ op ∈ ops, op.FitsRegister target narrow) (node : Nat) :
    (graph.op node).FitsRegister target narrow := by
  cases found : ops[node]? with
  | some op =>
    rw [lists.op node op found]
    exact fits op (mem_of_getElem? found)
  | none =>
    have outside : graph.size ≤ node := lists.size ▸ getElem?_eq_none_iff.mp found
    unfold DependencyGraph.op
    rw [node_of_size_le outside]
    exact Operation.fitsRegister_of_plain (by decide) (fun _ isNone => by cases isNone)
      fun _ isNone => by cases isNone

theorem Vectorizer.exists_array_of_itemSize? {op : Operation} (isSize : itemSize? op = some size)
    (positive : 0 < size) :
    ∃ array ∈ op.array?, (LaneType.ofArray array).isValid ∧ array.itemSize = size := by
  obtain ⟨_, _, isSize⟩ := Option.bind_eq_some_iff.mp isSize
  obtain ⟨array, isArray, isSize⟩ := Option.bind_eq_some_iff.mp isSize
  obtain ⟨_, isNumber, isSize⟩ := Option.bind_eq_some_iff.mp isSize
  cases isSize
  refine ⟨array, isArray, ?_, rfl⟩
  have isNumber : (array.kind != .ref && !array.isStruct) = true := by
    by_contra other
    rw [guard, if_neg other] at isNumber
    cases isNumber
  obtain ⟨id, itemSize, kind, signed, isStruct⟩ := array
  cases isStruct
  · cases kind
    · exact decide_eq_true positive
    · exact decide_eq_true positive
    · cases isNumber
  · cases kind <;> cases isNumber

theorem Vectorizer.isLaneSize_smallestItem (fits : ∀ op ∈ ops, op.FitsRegister target narrow)
    (measures : smallestItem ops ≠ 0) :
    IsLaneSize target.registerSize narrow (smallestItem ops) := by
  have isItem : smallestItem ops = 0 ∨ smallestItem ops ∈ ops.filterMap itemSize? := by
    refine foldlRecOn (motive := fun size => size = 0 ∨ size ∈ ops.filterMap itemSize?) _ _
      (.inl rfl) fun smallest holds size isSize => ?_
    unfold narrower
    split
    · exact .inr isSize
    · exact holds
  obtain ⟨op, isOp, isSize⟩ := mem_filterMap.mp (isItem.resolve_left measures)
  obtain ⟨array, isArray, isValid, sameSize⟩ :=
    exists_array_of_itemSize? isSize (Nat.pos_of_ne_zero measures)
  rw [← sameSize]
  exact (fits op isOp).items array isArray isValid

/-! ## Stages -/

theorem GuardCollapse.result_of_collapse {kept : List Operation} {count : Nat}
    {condition : Box → Prop} (holds : ∀ op ∈ ops, ∀ box ∈ op.result, condition box)
    (collapsed : collapse ops = .ok (kept, count)) :
    ∀ op ∈ kept, ∀ box ∈ op.result, condition box := by
  obtain ⟨keep, rfl, _⟩ := exists_keep collapsed
  intro op isKept box isBox
  obtain ⟨entry, isEntry, rfl⟩ := mem_map.mp isKept
  have isOp : entry.1 ∈ ops := fst_mem_of_mem_zipIdx (mem_of_mem_filter isEntry)
  refine holds entry.1 isOp box ?_
  rcases adapt_eq (IndexTable.ofOperations ops) entry.1 with same | ⟨_, _, _, _, _, _, _, _, same⟩
  · rwa [same] at isBox
  · rwa [same] at isBox

theorem Stages.Leads.fitsRegister (leads : stages.Leads state after)
    (fits : ∀ op ∈ state.ops, op.FitsRegister target narrow) (node : Nat) :
    (stages.packing.graph.op node).FitsRegister target narrow := by
  have relaxed : ∀ op ∈ stages.relaxed, op.FitsRegister target narrow := by
    rcases leads.relaxes with same | ⟨graph, relaxation, built, isRelaxation, scheduled⟩
    · exact same ▸ fits
    obtain ⟨_, _, _, _, loosens, _⟩ := exists_loosens built isRelaxation
    obtain ⟨order, isScheduled, _⟩ := exists_order loosens.mirrored loosens.pack scheduled
    intro op member
    rw [isScheduled] at member
    obtain ⟨position, _, rfl⟩ := mem_map.mp member
    exact (loosens.loosensTo position).fitsRegister
      ((lists_of_ofOperations built).fitsRegister fits position)
  have combined := Packing.isCombined_of_combine leads.finds leads.combines
  rw [combined.assigned, op_assign]
  unfold Stages.moved
  rw [op_pullUpRelaxedGuards leads.builds]
  exact (lists_of_ofOperations leads.builds).fitsRegister
    (Unrolling.fitsRegister_unroll relaxed stages.count state.supply) node

/-- Whatever the stages emit fits a register. -/
theorem Stages.Leads.results_fit (leads : stages.Leads state after) (small : narrow ≤ 8)
    (fits : ∀ op ∈ state.ops, op.FitsRegister state.target narrow) :
    ∀ op ∈ after.ops, ∀ box ∈ op.result, box.Fits state.target.registerSize := by
  have combined := Packing.isCombined_of_combine leads.finds leads.combines
  have sameOp : ∀ node, stages.packing.graph.op node = stages.moved.op node := fun node => by
    rw [combined.assigned, op_assign]
  have areAlike : ∀ pack ∈ stages.packing.packs.packs, ∀ member ∈ pack.members,
      (stages.packing.graph.op member).opcode = (stages.packing.graph.op pack.first).opcode := by
    intro pack isPack member isMember
    rw [sameOp, sameOp]
    exact ((combined.sound pack isPack).alike member isMember).1.symm
  have ofArray : ∀ pack ∈ stages.packing.packs.packs,
      pack.laneType = laneTypeAt stages.packing.graph pack.first := by
    have every := (Packing.Found.combine leads.finds).laneType_eq
    rw [Packing.afterCombine_eq_of_ok leads.combines] at every
    intro pack isPack
    unfold laneTypeAt
    rw [sameOp]
    exact every pack isPack
  let limits : LaneLimits :=
    ⟨state.target, _, narrow, small, Vectorizer.isLaneSize_smallestItem fits leads.measures⟩
  obtain ⟨isTarget, isRegister, isSmallest⟩ := leads.machine
  have starts : Lowering.IsFitting limits stages.start :=
    leads.starts.1.isFitting isTarget isRegister isSmallest
  have emitted := ((Lowering.confines_emitSchedule (leads.fitsRegister fits) ofArray areAlike _
    starts).of_ok leads.emits).1.output
  rcases leads.ends with same | ⟨dropped, collapsed⟩
  · rw [same]
    exact emitted
  · exact GuardCollapse.result_of_collapse emitted collapsed

/-- Where all operations of a loop fit a register, so does every vector that the vectorized loop
defines. -/
theorem Trace.fits_of_vectorize {trace output : Trace} {config : VectorizeConfig}
    {stats : VectorizeStats} (small : narrow ≤ 8)
    (fits : ∀ op ∈ trace.ops, op.FitsRegister target narrow)
    (vectorized : trace.vectorize target config = .ok (output, stats)) :
    ∀ op ∈ output.ops, ∀ box ∈ op.result, ∀ shape, box.type = .vector shape →
      shape.byteSize ≤ target.registerSize := by
  unfold vectorize at vectorized
  split at vectorized
  · rename_i ran
    cases vectorized
    obtain ⟨stages, leads⟩ := (Vectorizer.ensures_stages rfl).of_ok ran
    exact leads.results_fit small fits
  · cases vectorized

end

/-- Items of one array are extended to another size and stored to a second array. -/
def SignExtension.source : Value := .box ⟨0, .ref⟩

namespace SignExtension

def goal : Value := .box ⟨1, .ref⟩

def index : Value := .box ⟨2, .int⟩

def header (index : Value) : List Value := [source, goal, index]

def label : Operation := { opcode := .label, args := header index }

def advance (index : Value) (next : Nat) : Operation :=
  { opcode := .intAdd, args := [index, .int 1], result := some ⟨next, .int⟩ }

def jump (index : Value) : Operation := { opcode := .jump, args := header index }

def load (opcode : Opcode) (size : Nat) (operands : List Value) (result : Box) : Operation :=
  { opcode := opcode, args := source :: operands, result := some result,
    descriptor := some (.array (.ints 1 size)) }

def extend (opcode : Opcode) (operands : List Value) (result : Box) : Operation :=
  { opcode := opcode, args := operands, result := some result }

def store (opcode : Opcode) (size : Nat) (operands : List Value) : Operation :=
  { opcode := opcode, args := goal :: operands, descriptor := some (.array (.ints 2 size)) }

/-- The loop from items of one size to items of another. -/
def trace (size extended : Nat) : Trace where
  ops := [label, load .getArrayItemRaw size [index] ⟨3, .int⟩,
    extend .intSignExtend [.box ⟨3, .int⟩, .count extended] ⟨4, .int⟩,
    store .setArrayItemRaw extended [index, .box ⟨4, .int⟩], advance index 5,
    jump (.box ⟨5, .int⟩)]
  supply := ⟨6⟩

def target : Target := { registerSize := 8 }

def config : VectorizeConfig := { collapsesGuards := false }

def vector (id : Nat) (count : UInt16) (size : UInt8) : Box :=
  ⟨id, .vector ⟨.int, count, size, true⟩⟩

/-- Words become half words, each of which is put into a lane of one vector. -/
def narrowed : Trace where
  ops := [label, advance index 5,
    load .vecGetArrayItemRaw 8 [index, .int 1] (vector 9 1 8),
    load .vecGetArrayItemRaw 8 [.box ⟨5, .int⟩, .int 1] (vector 10 1 8),
    extend .vecIntSignExtend [.box (vector 9 1 8), .int 4, .int 1] (vector 11 1 4),
    extend .vecIntSignExtend [.box (vector 10 1 8), .int 4, .int 1] (vector 12 1 4),
    { opcode := .vecBox, args := [.int 2], result := some (vector 13 2 4) },
    { opcode := .vecIntPack, args := [.box (vector 13 2 4), .box (vector 11 1 4), .int 0, .int 1],
      result := some (vector 14 2 4) },
    { opcode := .vecIntPack, args := [.box (vector 14 2 4), .box (vector 12 1 4), .int 1, .int 1],
      result := some (vector 15 2 4) },
    store .vecSetArrayItemRaw 4 [index, .box (vector 15 2 4), .int 2], advance (.box ⟨5, .int⟩) 8,
    jump (.box ⟨8, .int⟩)]
  supply := ⟨16⟩

def narrowedStats : VectorizeStats := { vectorized := 1, packs := 3, vectorOps := 5 }

/-- The two half words of a vector become the words of one that is too wide. -/
def widened : Trace where
  ops := [label, advance index 5,
    load .vecGetArrayItemRaw 4 [index, .int 2] (vector 9 2 4),
    extend .vecIntSignExtend [.box (vector 9 2 4), .int 8, .int 2] (vector 10 2 8),
    { opcode := .vecIntUnpack, args := [.box (vector 10 2 8), .int 0, .int 1],
      result := some (vector 11 1 8) },
    store .vecSetArrayItemRaw 8 [index, .box (vector 11 1 8), .int 1],
    { opcode := .vecIntUnpack, args := [.box (vector 10 2 8), .int 1, .int 1],
      result := some (vector 12 1 8) },
    store .vecSetArrayItemRaw 8 [.box ⟨5, .int⟩, .box (vector 12 1 8), .int 1],
    advance (.box ⟨5, .int⟩) 8, jump (.box ⟨8, .int⟩)]
  supply := ⟨13⟩

def widenedStats : VectorizeStats := { vectorized := 1, packs := 3, vectorOps := 4 }

theorem vectorizes_narrowing :
    (trace 8 4).vectorize target config = .ok (narrowed, narrowedStats) := by
  cbv

end SignExtension

open SignExtension in
/-- Words that are narrowed to half words are held in vectors that fit. -/
theorem fits_of_narrowing : (trace 8 4).vectorize target config = .ok (narrowed, narrowedStats) ∧
    ∀ op ∈ narrowed.ops, ∀ box ∈ op.result, ∀ shape, box.type = .vector shape →
      shape.byteSize ≤ 8 :=
  ⟨vectorizes_narrowing,
    Trace.fits_of_vectorize (show 4 ≤ 8 by decide) (by decide) vectorizes_narrowing⟩

open SignExtension in
/-- Half words that are widened to words are not: the items of both arrays and the new lanes fit a
register, but the two lanes of a vector become one of twice its size. -/
theorem exceeds_of_widening :
    (∃ label body closing, IsTidyLoop (trace 4 8).ops label body closing (trace 4 8).supply) ∧
    (∀ op ∈ (trace 4 8).ops, (∀ array ∈ op.array?, array.itemSize ≤ target.registerSize) ∧
      (op.opcode = .intSignExtend → op.args[1]? = some (.count target.registerSize))) ∧
    ∃ output stats, (trace 4 8).vectorize target config = .ok (output, stats) ∧
      ∃ op ∈ output.ops, ∃ box ∈ op.result, ∃ shape, box.type = .vector shape ∧
        shape.byteSize = 2 * target.registerSize := by
  have loop : IsLoop (trace 4 8).ops label ((trace 4 8).ops.tail.dropLast)
      (jump (.box ⟨5, .int⟩)) := ⟨rfl, rfl, by decide, Or.inl rfl, by decide⟩
  refine ⟨⟨_, _, _, loop, by decide, by decide⟩, by decide, widened, widenedStats, by cbv, ?_⟩
  exact ⟨extend .vecIntSignExtend [.box (vector 9 2 4), .int 8, .int 2] (vector 10 2 8),
    by decide, vector 10 2 8, rfl, _, rfl, rfl⟩

end LinearTrace
