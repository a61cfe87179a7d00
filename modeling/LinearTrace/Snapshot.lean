import LinearTrace.Value

/-!
# Resume snapshots

A snapshot lists the values from which a failing guard rebuilds the frames of
the interpreted program, from the innermost frame out. Snapshots share their
outer frames, so renaming copies a frame only when a value of it, or of a frame
outside it, changes.
-/

namespace LinearTrace

/-- The frames of a snapshot, at least one. -/
inductive Snapshot where
  | root (values : List Value)
  /-- A frame called from `outer`. -/
  | nested (values : List Value) (outer : Snapshot)
  deriving DecidableEq, Inhabited, Repr

namespace Snapshot

/-- The frames, innermost first. -/
def frames : Snapshot → List (List Value)
  | .root values => [values]
  | .nested values outer => values :: outer.frames

def ofFrames (innermost : List Value) : List (List Value) → Snapshot
  | [] => .root innermost
  | next :: outer => .nested innermost (ofFrames next outer)

def depth : Snapshot → Nat
  | .root _ => 1
  | .nested _ outer => outer.depth + 1

/-- The values of all frames, innermost first. -/
def values : Snapshot → List Value
  | .root values => values
  | .nested values outer => values ++ outer.values

/-- A place in the walk over the values of a snapshot: a position in a frame, or none after the
outermost frame. -/
structure Cursor where
  frame : Option Snapshot
  position : Nat

/-- The first value from a position of a frame on, and the place behind it. -/
def nextFrom : Snapshot → Nat → Option Value × Cursor
  | .root values, position =>
    match values[position]? with
    | some value => (some value, ⟨some (.root values), position + 1⟩)
    | none => (none, ⟨none, 0⟩)
  | .nested values outer, position =>
    match values[position]? with
    | some value => (some value, ⟨some (.nested values outer), position + 1⟩)
    | none => outer.nextFrom 0

def Cursor.next (cursor : Cursor) : Option Value × Cursor :=
  match cursor.frame with
  | some frame => frame.nextFrom cursor.position
  | none => (none, cursor)

def contains (snapshot : Snapshot) (value : Value) : Bool :=
  snapshot.values.any (· == value)

/-- A renamed snapshot, and for each frame, innermost first, whether it had to be copied. -/
structure Renamed where
  snapshot : Snapshot
  copied : List Bool
  deriving Repr

def Renamed.innermostCopied (renamed : Renamed) : Bool :=
  renamed.copied.headD false

/-- Rename every value, the outermost frame first. -/
def renameWith {m : Type → Type} [Monad m] (rename : Value → m Value) : Snapshot → m Renamed
  | .root values => do
      let renamed ← values.mapM rename
      if renamed = values then
        return ⟨.root values, [false]⟩
      else
        return ⟨.root renamed, [true]⟩
  | .nested values outer => do
      let renamedOuter ← outer.renameWith rename
      let renamed ← values.mapM rename
      if renamedOuter.innermostCopied || renamed ≠ values then
        return ⟨.nested renamed renamedOuter.snapshot, true :: renamedOuter.copied⟩
      else
        return ⟨.nested values outer, false :: renamedOuter.copied⟩

def rename (rename : Value → Value) (snapshot : Snapshot) : Renamed :=
  Id.run (snapshot.renameWith fun value => pure (rename value))

end Snapshot

end LinearTrace
