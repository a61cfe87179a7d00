import Mathlib.Logic.Relation
import LinearTrace.Proofs.Facts.Scope

/-!
# Chains of replacements end

Whatever a walk is asked to learn or to emit, its replacements have no cycle: a
box is only ever replaced by a value that is not replaced itself, and never by
itself.
-/

namespace LinearTrace

/-- One step along a chain: the value is a box, and that is replaced. -/
def Replacements.Leads (replacements : Replacements) (value next : Value) : Prop :=
  ∃ box ∈ value.box?, replacements[box]? = some next

namespace Facts

open Replacements Relation

variable {facts : Facts} {replacements : Replacements} {value next : Value}

/-- What a walk may be asked to do with its facts. -/
inductive Request where
  | emit (op : Operation)
  | makeEqual (box : Box) (value : Value)
  | makeConstant (value : Value) (literal : Const)
  | makeWord (box : Box) (word : Int64)
  | narrow (value : Value) (narrowing : Interval.Narrowing)
  | narrowCondition (condition : Value) (truth : Bool)

def after (facts : Facts) : Request → Facts
  | .emit op => (Facts.emit op).left facts
  | .makeEqual box value => facts.makeEqual box value
  | .makeConstant value literal => facts.makeConstant value literal
  | .makeWord box word => facts.makeWord box word
  | .narrow value narrowing => (Facts.narrow value narrowing).left facts
  | .narrowCondition condition truth => (Facts.narrowCondition condition truth).left facts

/-! ## No cycle -/

theorem acyclic_perform (acyclic : Acyclic facts.replacements) (op : Operation)
    (emission : Emission) : Acyclic (facts.perform op emission).replacements := by
  cases emission with
  | constant result literal => exact (learns_makeConstant facts _ literal).acyclic acyclic
  | reuse result value => exact (learns_makeEqual facts result value).acyclic acyclic
  | append interval =>
    rw [perform, replacements_append]
    exact acyclic

theorem acyclic_after (acyclic : Acyclic facts.replacements) (request : Request) :
    Acyclic (facts.after request).replacements := by
  have learns : KeptByNarrowing fun facts => Acyclic facts.replacements :=
    ⟨fun _ _ acyclic => acyclic, fun facts _ _ => (learns_makeConstant facts _ _).acyclic⟩
  cases request with
  | emit op =>
    change Acyclic (Work.left (liftM (facts.emission _) >>= _) facts).replacements
    cases facts.emission (facts.resolveOperation op) with
    | ok emission => exact acyclic_perform acyclic _ emission
    | error fault => exact acyclic
  | makeEqual box value => exact (learns_makeEqual facts box value).acyclic acyclic
  | makeConstant value literal => exact (learns_makeConstant facts value literal).acyclic acyclic
  | makeWord box word => exact (learns_makeConstant facts _ _).acyclic acyclic
  | narrow value narrowing => exact learns.narrow value narrowing acyclic
  | narrowCondition condition truth => exact learns.narrowCondition condition truth acyclic

/-! ## Chains -/

theorem rank_of_chain {rank : Box → Nat}
    (falls : ∀ box next, replacements[box]? = some (.box next) → rank next < rank box)
    (chain : TransGen replacements.Leads value next) :
    ∃ box ∈ value.box?, ∀ last ∈ next.box?, rank last < rank box := by
  induction chain with
  | single leads =>
    obtain ⟨box, isBox, entry⟩ := leads
    refine ⟨box, isBox, fun last isLast => falls box last ?_⟩
    rw [entry, Value.mem_box?.mp isLast]
  | tail _ leads ih =>
    obtain ⟨box, isBox, below⟩ := ih
    obtain ⟨middle, isMiddle, entry⟩ := leads
    refine ⟨box, isBox, fun last isLast => lt_trans (falls middle last ?_) (below middle isMiddle)⟩
    rw [entry, Value.mem_box?.mp isLast]

theorem chain_follow (replacements : Replacements) (steps : Nat) (value : Value) :
    ReflTransGen replacements.Leads value (follow replacements steps value) := by
  induction steps generalizing value with
  | zero => cases value <;> exact .refl
  | succ steps ih =>
    cases value with
    | const literal => exact .refl
    | box box =>
      rw [follow]
      split
      · exact .head ⟨box, rfl, ‹_›⟩ (ih _)
      · exact .refl

/-- After any requests, the replacements have no cycle, and each value is resolved by following its
chain to the end, where there is no replacement, so that it stands for itself. -/
theorem chains_end (target : Target) (trace : Trace) (requests : List Request) :
    let facts := requests.foldl after (start target trace)
    (∀ value, ¬ TransGen (Leads facts.replacements) value value) ∧
      ∀ value, ReflTransGen (Leads facts.replacements) value (facts.resolve value) ∧
        (∀ next, ¬ Leads facts.replacements (facts.resolve value) next) ∧
          facts.resolve (facts.resolve value) = facts.resolve value := by
  intro facts
  have acyclic : Acyclic facts.replacements :=
    List.foldlRecOn (motive := fun facts => Acyclic facts.replacements) requests after
      acyclic_empty fun _ acyclic request _ => acyclic_after acyclic request
  refine ⟨fun value cycle => ?_, fun value => ⟨chain_follow _ _ value, ?_, ?_⟩⟩
  · obtain ⟨rank, falls⟩ := acyclic
    obtain ⟨box, isBox, below⟩ := rank_of_chain falls cycle
    exact lt_irrefl _ (below box isBox)
  · rintro next ⟨box, isBox, entry⟩
    have final := isFinal_resolve acyclic value
    rw [Value.mem_box?.mp isBox] at final
    cases final.symm.trans entry
  · exact resolve_of_isFinal (isFinal_resolve acyclic value)

end Facts

end LinearTrace
