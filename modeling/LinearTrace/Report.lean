import LinearTrace.Shorthand.Descriptor
import LinearTrace.Interval
import LinearTrace.Trace

/-!
# Reports

A report is a value laid out for a reader: numbers, texts, lists and records.
Counts and positions are numbers. Words, addresses and bits may be larger than
some readers can hold, so they are written as text; values and descriptors are
written in shorthand.
-/

namespace LinearTrace

/-- A value laid out for a reader. -/
inductive Report where
  | absent
  | flag (value : Bool)
  | number (value : Int)
  | text (value : String)
  | list (items : List Report)
  /-- Named fields, in no particular order. -/
  | record (fields : List (String × Report))
  deriving Inhabited, Repr

class Reports (α : Type) where
  report : α → Report

export Reports (report)

namespace Report

instance : Reports Report := ⟨id⟩
instance : Reports Unit := ⟨fun _ => .absent⟩
instance : Reports Bool := ⟨.flag⟩
instance : Reports Nat := ⟨fun value => .number value⟩
instance : Reports Int := ⟨.number⟩
instance : Reports String := ⟨.text⟩
instance : Reports Int64 := ⟨fun value => .text (toString value.toInt)⟩
instance : Reports UInt64 := ⟨fun value => .text (toString value.toNat)⟩

instance {α : Type} [Reports α] : Reports (Option α) where
  report
    | some value => report value
    | none => .absent

instance {α : Type} [Reports α] : Reports (List α) where
  report values := .list (values.map report)

instance {α β : Type} [Reports α] [Reports β] : Reports (α × β) where
  report pair := .list [report pair.1, report pair.2]

def field {α : Type} [Reports α] (name : String) (value : α) : String × Report :=
  (name, report value)

/-- A field that is left out when it has no value. -/
def field? {α : Type} [Reports α] (name : String) (value : Option α) : List (String × Report) :=
  value.toList.map (field name)

instance : Reports Binary64 := ⟨fun value => .text (Shorthand.double value)⟩
instance : Reports VectorShape := ⟨fun shape => .text shape.shorthand⟩
instance : Reports ValueType := ⟨fun type => .text type.shorthand⟩
instance : Reports Box := ⟨fun box => .text box.shorthand⟩
instance : Reports Const := ⟨fun literal => .text literal.shorthand⟩
instance : Reports Value := ⟨fun value => .text value.shorthand⟩
instance : Reports LaneType := ⟨fun type => .text type.shorthand⟩
instance : Reports Opcode := ⟨fun opcode => .text opcode.name⟩
instance : Reports ArrayDescriptor := ⟨fun array => .text array.shorthand⟩
instance : Reports Resume := ⟨fun resume => .text resume.shorthand⟩
instance : Reports Descriptor := ⟨fun descriptor => .text descriptor.shorthand⟩
instance : Reports Snapshot := ⟨fun snapshot => report snapshot.frames⟩
instance : Reports Interval := ⟨fun interval => report (interval.lower, interval.upper)⟩

instance : Reports Operation where
  report op := .record (
    [field "o" op.opcode, field "a" op.args] ++ field? "r" op.result ++ field? "d" op.descriptor
      ++ field? "s" op.snapshot)

instance : Reports Trace where
  report trace := .record [
    field "ops" trace.ops, field "next" trace.supply.next, field "pure" trace.callResults.size]

end Report

end LinearTrace
