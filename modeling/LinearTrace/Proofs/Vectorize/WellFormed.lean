import Mathlib
import LinearTrace.Proofs.Vectorize.Collapse
import LinearTrace.Proofs.Vectorize.Packed
import LinearTrace.Proofs.Vectorize.Stages
import LinearTrace.Proofs.Vectorize.Unroll

/-!
# Vectorized loops are loops

Stage by stage the vectorizer keeps a loop: while it works on operations they are a
tidy loop, while it works on a graph the graph is that of a tidy loop, and what it
emits in the end is in scope.
-/

namespace LinearTrace

open DependencyGraph

namespace Vectorizer

variable {label : Operation} {state : Vectorizer}

/-- The operations are a tidy loop, and there are no packs yet. -/
def HasLoop (label : Operation) (state : Vectorizer) : Prop :=
  state.packs = {} ∧ ∃ body closing, IsTidyLoop state.ops label body closing state.supply

theorem isTidyLoop_relaxed {stages : Stages} {after : Vectorizer} {body : List Operation}
    {closing : Operation} (loop : IsTidyLoop state.ops label body closing state.supply)
    (leads : stages.Leads state after) :
    ∃ body, IsTidyLoop stages.relaxed label body closing state.supply := by
  rcases leads.relaxes with same | ⟨graph, relaxation, built, isRelaxation, scheduled⟩
  · exact ⟨body, same ▸ loop⟩
  · exact isTidyLoop_of_ofGraph? loop built isRelaxation scheduled

theorem ensures_run (hasLoop : HasLoop label state) : Ensures True run state fun _ after =>
      ∃ body jump, IsLoop after.ops label body jump ∧ jump.opcode = .jump := by
  obtain ⟨noPacks, body, closing, loop⟩ := hasLoop
  refine (ensures_stages noPacks).weaken fun _ after holds => ?_
  obtain ⟨stages, leads⟩ := holds
  obtain ⟨relaxedBody, isRelaxed⟩ := isTidyLoop_relaxed loop leads
  obtain ⟨unrolledBody, jump, unrolled, isJump⟩ :=
    Unrolling.isTidyLoop_unroll isRelaxed stages.count
  have able := Packing.canEmit_of_combine unrolled isJump leads.builds leads.finds leads.combines
  obtain ⟨empty, isSupply⟩ := leads.starts
  rw [Stages.unrolled] at isSupply
  rw [← isSupply] at able
  obtain ⟨emittedBody, emittedJump, isLoop, isJump, void⟩ :=
    (able.ensures_emitSchedule empty).of_ok leads.emits
  rcases leads.ends with same | ⟨dropped, collapsed⟩
  · exact ⟨emittedBody, emittedJump, same ▸ isLoop, isJump⟩
  · obtain ⟨kept, isLoop⟩ := GuardCollapse.exists_isLoop_of_collapse isLoop void collapsed
    exact ⟨kept, emittedJump, isLoop, isJump⟩

end Vectorizer

/-- A vectorized loop is a loop: it begins with the label and ends with a jump, and every box is
defined once and before it is read. -/
theorem Trace.isLoop_of_vectorize {trace output : Trace} {target : Target}
    {config : VectorizeConfig} {stats : VectorizeStats} {label closing : Operation}
    {body : List Operation} (loop : IsTidyLoop trace.ops label body closing trace.supply)
    (vectorized : trace.vectorize target config = .ok (output, stats)) :
    ∃ body jump, IsLoop output.ops label body jump ∧ jump.opcode = .jump := by
  have hasLoop : Vectorizer.HasLoop label (.start target config trace) := ⟨rfl, body, closing, loop⟩
  have ensured := Vectorizer.ensures_run hasLoop
  unfold vectorize at vectorized
  split at vectorized
  · rename_i ran
    cases vectorized
    exact ensured.of_ok ran
  · cases vectorized

/-- Two sums, one of a called value, are stored to neighbouring items; a guard on the first one
follows. -/
def GuardedSums.array : Box := ⟨0, .ref⟩

namespace GuardedSums

def index : Box := ⟨1, .int⟩

def called : Box := ⟨2, .int⟩

def first : Box := ⟨3, .int⟩

def second : Box := ⟨4, .int⟩

def header : List Value := [.box array, .box index]

def leave (opcode : Opcode) (args : List Value) : Operation :=
  { opcode := opcode, args := args, descriptor := some (.guard .atLoopHeader),
    snapshot := some (.root header) }

def label : Operation := { opcode := .label, args := header }

def call : Operation := { opcode := .callPure, args := [.const (.ref 4096)], result := some called }

def sum (summand result : Box) : Operation :=
  { opcode := .intAdd, args := [.box summand, .int 5], result := some result }

def store (opcode : Opcode) (operands : List Value) : Operation :=
  { opcode := opcode, args := .box array :: operands, descriptor := some (.array (.ints 1 8)) }

def body : List Operation :=
  [leave .guardEarlyExit [], call, sum index first, sum called second,
    store .setArrayItemRaw [.int 0, .box first], store .setArrayItemRaw [.int 1, .box second],
    leave .guardTrue [.box first]]

def jump : Operation := { opcode := .jump, args := header }

def trace : Trace := { ops := label :: (body ++ [jump]), supply := ⟨5⟩ }

def target : Target := { registerSize := 8 }

def config : VectorizeConfig := { collapsesGuards := false }

def vector (id : Nat) : Box := ⟨id, .vector ⟨.int, 1, 8, true⟩⟩

def expand (item : Value) (id : Nat) : Operation :=
  { opcode := .vecIntExpand, args := [item, .int 1], result := some (vector id) }

def vectorSum (left right result : Nat) : Operation :=
  { opcode := .vecIntAdd, args := [.box (vector left), .box (vector right), .int 1],
    result := some (vector result) }

def vectorBody : List Operation :=
  [call, expand (.box index) 5, expand (.int 5) 6, vectorSum 5 6 7, expand (.box called) 8,
    expand (.int 5) 9, vectorSum 8 9 10,
    { opcode := .vecIntUnpack, args := [.box (vector 7), .int 0, .int 1],
      result := some ⟨11, .int⟩ },
    leave .guardTrue [.box ⟨11, .int⟩], leave .guardEarlyExit [],
    store .vecSetArrayItemRaw [.int 0, .box (vector 7), .int 1],
    store .vecSetArrayItemRaw [.int 1, .box (vector 10), .int 1]]

def output : Trace := { ops := label :: (vectorBody ++ [jump]), supply := ⟨12⟩ }

def stats : VectorizeStats :=
  { vectorized := 1, packs := 2, vectorOps := 4, unpacks := 1, relaxed := 1 }

theorem vectorizes : trace.vectorize target config = .ok (output, stats) := by
  cbv

end GuardedSums

open GuardedSums in
/-- The sums are packed, and the guard, which reads a lane, moves in front of the early exit. -/
theorem isLoop_of_guardedSums :
    ∃ body jump, IsLoop output.ops label body jump ∧ jump.opcode = .jump := by
  have loop : IsLoop trace.ops label body GuardedSums.jump :=
    ⟨rfl, rfl, by decide, Or.inl rfl, by decide⟩
  exact Trace.isLoop_of_vectorize ⟨loop, by decide, by decide⟩ vectorizes

namespace GuardedSums

/-- The first of two neighbouring stores defines a box, which a sum reads. -/
def namedStores : List Operation :=
  [{ store .setArrayItemRaw [.int 0, .box index] with result := some called },
    store .setArrayItemRaw [.int 1, .box index], sum called first]

def nextRound : Operation := { opcode := .jump, args := [.box array, .box first] }

def named : Trace := { ops := label :: (namedStores ++ [nextRound]), supply := ⟨5⟩ }

end GuardedSums

open GuardedSums in
/-- Where a store defines a box, packing the store takes the box away from its readers. -/
theorem not_isLoop_of_namedStores : IsLoop named.ops label namedStores nextRound ∧
    (∀ op ∈ named.ops, op.snapshot = none) ∧ named.supply.IsAbove named.ops ∧
    ∃ output stats, named.vectorize target config = .ok (output, stats) ∧
      ¬ ∃ body jump, IsLoop output.ops label body jump := by
  refine ⟨⟨rfl, rfl, by decide, .inl rfl, by decide⟩, by decide, by decide, ?_⟩
  have notScoped : (named.vectorize target config).map
      (fun result => decide (Scoped result.1.ops)) = .ok false := by cbv
  cases vectorized : named.vectorize target config with
  | error fault =>
    rw [vectorized] at notScoped
    cases notScoped
  | ok result =>
    rw [vectorized] at notScoped
    refine ⟨result.1, result.2, rfl, ?_⟩
    rintro ⟨body, jump, loop⟩
    exact of_decide_eq_false (Except.ok.inj notScoped) loop.inScope

end LinearTrace
