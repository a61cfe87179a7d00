import LinearTrace.Snapshot

/-!
# Renaming a snapshot

Renaming copies only the frames from which a value that changes can be reached, but
what it returns has in every frame the renamed values.  A walk over a snapshot gives
the values of all frames, the innermost first.
-/

namespace LinearTrace.Snapshot

open List

theorem values_eq_flatten (snapshot : Snapshot) : snapshot.values = snapshot.frames.flatten := by
  induction snapshot with
  | root frame => simp [values, frames]
  | nested frame outer ih => simp [values, frames, ih]

theorem depth_eq_length (snapshot : Snapshot) : snapshot.depth = snapshot.frames.length := by
  induction snapshot with
  | root frame => rfl
  | nested frame outer ih => rw [depth, ih, frames, length_cons]

/-! ## Walks -/

/-- From this place on, the walk gives these values and then ends. -/
inductive Cursor.Yields : Cursor → List Value → Prop where
  | nil {cursor : Cursor} (ends : cursor.next = (none, ⟨none, 0⟩)) : Yields cursor []
  | cons {cursor after : Cursor} {value : Value} {values : List Value}
      (gives : cursor.next = (some value, after)) (rest : Yields after values) :
      Yields cursor (value :: values)

theorem Cursor.Yields.of_next_eq {cursor other : Cursor} {values : List Value}
    (yields : other.Yields values) (same : cursor.next = other.next) : cursor.Yields values := by
  cases yields with
  | nil ends => exact .nil (same.trans ends)
  | cons gives rest => exact .cons (same.trans gives) rest

/-- The induction is on the values that are left in the frame. -/
theorem Cursor.yields_append {frame : Snapshot} (values : List Value) {beyond : List Value}
    (inside : ∀ position value, values[position]? = some value →
      frame.nextFrom position = (some value, ⟨some frame, position + 1⟩))
    (behind : ∀ position, values[position]? = none →
      (Cursor.mk (some frame) position).Yields beyond)
    (rest : List Value) (position : Nat) (isRest : values.drop position = rest) :
    (Cursor.mk (some frame) position).Yields (rest ++ beyond) := by
  induction rest generalizing position with
  | nil => exact behind position (getElem?_eq_none (drop_eq_nil_iff.mp isRest))
  | cons value rest ih =>
    have found : values[position]? = some value := by
      rw [← head?_drop, isRest, head?_cons]
    refine .cons (inside position value found) (ih (position + 1) ?_)
    rw [← drop_drop, drop_one, isRest, tail_cons]

theorem yields_values (snapshot : Snapshot) :
    (Cursor.mk (some snapshot) 0).Yields snapshot.values := by
  induction snapshot with
  | root values =>
    have whole : (Cursor.mk (some (.root values)) 0).Yields (values ++ []) := by
      refine Cursor.yields_append values ?_ ?_ values 0 rfl
      · exact fun position value found => by rw [nextFrom, found]
      · exact fun position ends => .nil (by simp only [Cursor.next, nextFrom, ends])
    rwa [append_nil] at whole
  | nested values outer ih =>
    refine Cursor.yields_append values ?_ ?_ values 0 rfl
    · exact fun position value found => by rw [nextFrom, found]
    · exact fun position ends => ih.of_next_eq (by simp only [Cursor.next, nextFrom, ends])

/-! ## Renaming -/

/-- The cells that make up a snapshot, innermost first: each holds a frame and leads to all frames
outside it. -/
def cells : Snapshot → List Snapshot
  | .root values => [.root values]
  | .nested values outer => .nested values outer :: outer.cells

/-- A value of the snapshot's frames changes. -/
def changes (rename : Value → Value) (snapshot : Snapshot) : Bool :=
  snapshot.values.any fun value => rename value != value

section

variable (rename : Value → Value)

include rename

theorem rename_root (values : List Value) : (Snapshot.root values).rename rename =
      if values.map rename = values then ⟨.root values, [false]⟩
      else ⟨.root (values.map rename), [true]⟩ := by
  simp only [Snapshot.rename, renameWith, pure_bind, List.mapM_pure]
  split <;> rfl

theorem rename_nested (values : List Value) (outer : Snapshot) :
    (Snapshot.nested values outer).rename rename =
      if (outer.rename rename).innermostCopied || values.map rename ≠ values then
        ⟨.nested (values.map rename) (outer.rename rename).snapshot,
          true :: (outer.rename rename).copied⟩
      else ⟨.nested values outer, false :: (outer.rename rename).copied⟩ := by
  simp only [Snapshot.rename, renameWith, List.mapM_pure, pure_bind]
  exact apply_ite Id.run ..

/-- Every frame of the renamed snapshot is renamed, and a snapshot whose innermost frame was not
copied is the old one. -/
theorem frames_and_sharing_of_rename (snapshot : Snapshot) :
    (snapshot.rename rename).snapshot.frames = snapshot.frames.map (map rename) ∧
      ((snapshot.rename rename).innermostCopied = false →
        (snapshot.rename rename).snapshot = snapshot) := by
  induction snapshot with
  | root values =>
    rw [rename_root]
    split
    next same => exact ⟨by simp [frames, same], fun _ => rfl⟩
    · exact ⟨rfl, fun copied => by cases copied⟩
  | nested values outer ih =>
    rw [rename_nested]
    split
    · exact ⟨by rw [frames, ih.1]; rfl, fun copied => by cases copied⟩
    -- Nothing changed here, so the outer frames were not copied either.
    rename_i unchanged
    simp only [Bool.or_eq_true, decide_eq_true_eq, not_or, Bool.not_eq_true,
      Decidable.not_not] at unchanged
    refine ⟨?_, fun _ => rfl⟩
    rw [frames, map_cons, ← ih.1, ih.2 unchanged.1, unchanged.2]

theorem frames_rename (snapshot : Snapshot) :
    (snapshot.rename rename).snapshot.frames = snapshot.frames.map (map rename) :=
  (frames_and_sharing_of_rename rename snapshot).1

theorem values_rename (snapshot : Snapshot) :
    (snapshot.rename rename).snapshot.values = snapshot.values.map rename := by
  rw [values_eq_flatten, frames_rename, values_eq_flatten, map_flatten]

theorem any_changes_iff (values : List Value) :
    (values.any fun value => rename value != value) = decide (values.map rename ≠ values) := by
  induction values with
  | nil => rfl
  | cons first rest ih => by_cases same : rename first = first <;> simp [ih, same]

theorem innermostCopied_rename (snapshot : Snapshot) :
    (snapshot.rename rename).innermostCopied = snapshot.changes rename := by
  unfold changes
  induction snapshot with
  | root frame =>
    rw [rename_root, values, any_changes_iff]
    split <;> simp_all [Renamed.innermostCopied]
  | nested frame outer ih =>
    rw [rename_nested, ih, values, any_append, any_changes_iff rename frame, Bool.or_comm]
    split
    next copied => exact copied.symm
    next kept => exact (Bool.not_eq_true _ ▸ kept).symm

theorem copied_rename (snapshot : Snapshot) :
    (snapshot.rename rename).copied = snapshot.cells.map (changes rename) := by
  have head := innermostCopied_rename rename snapshot
  induction snapshot with
  | root values =>
    rw [rename_root] at head ⊢
    split at head <;> simp_all [Renamed.innermostCopied, cells]
  | nested values outer ih =>
    have outward := ih (innermostCopied_rename rename outer)
    rw [rename_nested] at head ⊢
    split at head <;> simp_all [Renamed.innermostCopied, cells]

/-- The cells of frames that no value changes in or outside are those of the old snapshot. -/
theorem cells_rename (snapshot : Snapshot) :
    (snapshot.rename rename).snapshot.cells = snapshot.cells.map fun cell =>
      if cell.changes rename then (cell.rename rename).snapshot else cell := by
  have kept : ∀ cell : Snapshot, (cell.rename rename).snapshot =
      if cell.changes rename then (cell.rename rename).snapshot else cell := by
    intro cell
    split
    · rfl
    next unchanged =>
      rw [← innermostCopied_rename, Bool.not_eq_true] at unchanged
      exact (frames_and_sharing_of_rename rename cell).2 unchanged
  simp only [← kept]
  induction snapshot with
  | root values =>
    rw [cells, map_singleton, rename_root]
    split <;> rfl
  | nested values outer ih =>
    rw [cells, map_cons, ← ih, rename_nested]
    split
    · rfl
    next unchanged =>
      rw [innermostCopied_rename] at unchanged
      rw [kept outer, if_neg fun changes => unchanged (by rw [changes]; rfl), cells]

end

/-- Renaming keeps the number of frames and their lengths.  Where a walk over the old snapshot gives
a value, a walk over the new one gives the renamed value.  A new cell is made exactly for the
frames with a value that changes in or outside them; all others keep the old cell. -/
theorem rename_frames_and_cells (rename : Value → Value) (snapshot : Snapshot) :
    (snapshot.rename rename).snapshot.depth = snapshot.depth ∧
      (snapshot.rename rename).snapshot.frames.map List.length =
        snapshot.frames.map List.length ∧
      (Cursor.mk (some snapshot) 0).Yields snapshot.values ∧
      (Cursor.mk (some (snapshot.rename rename).snapshot) 0).Yields (snapshot.values.map rename) ∧
      (snapshot.rename rename).copied = snapshot.cells.map (changes rename) ∧
      (snapshot.rename rename).snapshot.cells = snapshot.cells.map fun cell =>
        if cell.changes rename then (cell.rename rename).snapshot else cell := by
  refine ⟨?_, ?_, yields_values snapshot, values_rename rename snapshot ▸ yields_values _,
    copied_rename rename snapshot, cells_rename rename snapshot⟩
  · rw [depth_eq_length, frames_rename, List.length_map, depth_eq_length]
  · rw [frames_rename, List.map_map]
    exact List.map_congr_left fun frame _ => List.length_map rename

end LinearTrace.Snapshot
