import Mathlib.Data.List.Perm.Subperm
import LinearTrace.Facts
import LinearTrace.Proofs.Run

/-!
# Chains of replacements

A box may be replaced by a box that is replaced in turn.  As long as the
replacements have no cycle, following them for as many steps as there are
entries ends at a value that is not replaced, because a longer chain would have
to visit more boxes than have an entry.
-/

namespace LinearTrace

open Std.HashMap

/-- The replacements of a forward walk. -/
abbrev Replacements := Std.HashMap Box Value

namespace Replacements

variable {replacements : Replacements}

/-- No replacement leads back: some rank falls along every replacement of a box by a box. -/
def Acyclic (replacements : Replacements) : Prop :=
  ∃ rank : Box → Nat, ∀ box next,
    replacements[box]? = some (.box next) → rank next < rank box

def IsFinal (replacements : Replacements) : Value → Prop
  | .const _ => True
  | .box box => replacements[box]? = none

theorem acyclic_empty : Acyclic ∅ :=
  ⟨fun _ => 0, fun box next entry => by simp at entry⟩

theorem Acyclic.insert_const (acyclic : replacements.Acyclic) (box : Box) (literal : Const) :
    Acyclic (replacements.insert box (.const literal)) := by
  obtain ⟨rank, falls⟩ := acyclic
  refine ⟨rank, fun source next entry => ?_⟩
  rw [getElem?_insert] at entry
  split at entry
  · cases entry
  · exact falls source next entry

theorem Acyclic.insert_box (acyclic : replacements.Acyclic) {box target : Box}
    (final : replacements[target]? = none) (apart : target ≠ box) :
    Acyclic (replacements.insert box (.box target)) := by
  obtain ⟨rank, falls⟩ := acyclic
  -- The target becomes the lowest box of all; it starts no chain, so nothing else is disturbed.
  refine ⟨fun other => if other = target then 0 else rank other + 1, fun source next entry => ?_⟩
  dsimp only
  rcases eq_or_getElem?_of_insert entry with ⟨rfl, ⟨⟩⟩ | ⟨_, isOld⟩
  · rw [if_pos rfl, if_neg (Ne.symm apart)]
    exact Nat.succ_pos _
  have notTarget : source ≠ target := by
    rintro rfl
    cases final.symm.trans isOld
  rw [if_neg notTarget]
  split
  · exact Nat.succ_pos _
  · exact Nat.succ_lt_succ (falls source next isOld)

theorem length_le_size {boxes : List Box} (distinct : boxes.Nodup)
    (entered : ∀ box ∈ boxes, box ∈ replacements) : boxes.length ≤ replacements.size := by
  rw [← length_keys]
  exact (distinct.subperm fun box member =>
    mem_keys.mpr (entered box member)).length_le

end Replacements

namespace Facts

open Replacements

variable {facts : Facts} {value : Value} {replacements : Replacements}

theorem follow_const (replacements : Replacements) (steps : Nat) (literal : Const) :
    follow replacements steps (.const literal) = .const literal := by
  cases steps <;> rfl

/-- While following a box does not end, the boxes on the way are different entries, one for each
step, none of a higher rank than the start. -/
theorem follow_visits {rank : Box → Nat}
    (falls : ∀ box next, replacements[box]? = some (.box next) → rank next < rank box) (steps : Nat)
    (box : Box) (unfinished : ¬ replacements.IsFinal (follow replacements steps (.box box))) :
    ∃ visited : List Box, visited.length = steps + 1 ∧ visited.Nodup ∧
      ∀ other ∈ visited, other ∈ replacements ∧ rank other ≤ rank box := by
  induction steps generalizing box with
  | zero =>
    have entered : box ∈ replacements :=
      Decidable.byContradiction fun absent => unfinished (getElem?_eq_none absent)
    refine ⟨[box], rfl, List.pairwise_singleton _ _, fun other member => ?_⟩
    rw [List.mem_singleton.mp member]
    exact ⟨entered, Nat.le_refl _⟩
  | succ steps ih =>
    rw [follow] at unfinished
    cases entry : replacements[box]? with
    | none =>
      rw [entry] at unfinished
      exact absurd entry unfinished
    | some value =>
      rw [entry] at unfinished
      cases value with
      | const literal =>
        dsimp only at unfinished
        rw [follow_const] at unfinished
        exact absurd trivial unfinished
      | box next =>
        obtain ⟨visited, length, distinct, below⟩ := ih next unfinished
        have lower : rank next < rank box := falls box next entry
        have entered : box ∈ replacements :=
          mem_iff_isSome_getElem?.mpr (by rw [entry]; rfl)
        refine ⟨box :: visited, by rw [List.length_cons, length], ?_, ?_⟩
        · refine List.nodup_cons.mpr ⟨fun member => ?_, distinct⟩
          exact Nat.lt_irrefl _ (Nat.lt_of_le_of_lt (below box member).2 lower)
        intro other member
        rcases List.mem_cons.mp member with rfl | member
        · exact ⟨entered, Nat.le_refl _⟩
        · exact ⟨(below other member).1, Nat.le_of_lt
            (Nat.lt_of_le_of_lt (below other member).2 lower)⟩

/-- A value that is resolved is not replaced any further. -/
theorem isFinal_resolve (acyclic : Acyclic facts.replacements) (value : Value) :
    IsFinal facts.replacements (facts.resolve value) := by
  obtain ⟨rank, falls⟩ := acyclic
  cases value with
  | const literal =>
    rw [resolve, follow_const]
    exact trivial
  | box box =>
    refine Classical.byContradiction fun unfinished => ?_
    obtain ⟨visited, length, distinct, below⟩ := follow_visits falls _ box unfinished
    have bounded := length_le_size distinct fun other member => (below other member).1
    rw [length] at bounded
    exact Nat.not_succ_le_self _ bounded

theorem follow_of_isFinal (steps : Nat) (final : replacements.IsFinal value) :
    follow replacements steps value = value := by
  cases value with
  | const literal => exact follow_const replacements steps literal
  | box box =>
    cases steps with
    | zero => rw [follow]
    | succ steps =>
      have absent : replacements[box]? = none := final
      rw [follow, absent]

theorem resolve_of_isFinal (final : Replacements.IsFinal facts.replacements value) :
    facts.resolve value = value :=
  follow_of_isFinal _ final

end Facts

end LinearTrace
