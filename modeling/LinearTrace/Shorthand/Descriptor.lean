import LinearTrace.Shorthand

/-!
# Shorthand for descriptors

A descriptor is its kind followed by its fields: `array:1:4:int:s`,
`size:3:4096`, `guard:header`, `target:0`, `call:none:raise`. The arrays that a
call may write follow it after semicolons.
-/

namespace LinearTrace

open Shorthand

def ItemKind.shorthand : ItemKind → String
  | .int => "int"
  | .float => "float"
  | .ref => "ref"

def ItemKind.ofShorthand? : String → Option ItemKind
  | "int" => some .int
  | "float" => some .float
  | "ref" => some .ref
  | _ => none

/-- An array such as `array:1:4:int:s`. -/
def ArrayDescriptor.shorthand (array : ArrayDescriptor) : String :=
  joined (["array", toString array.id, toString array.itemSize, array.kind.shorthand,
    signLetter array.signed] ++ if array.isStruct then ["struct"] else [])

def ArrayDescriptor.ofShorthand? (source : String) : Option ArrayDescriptor := do
  let "array" :: id :: size :: kind :: sign :: rest := fields source | none
  return {
    id := ← id.toNat?, itemSize := ← size.toNat?, kind := ← ItemKind.ofShorthand? kind
    signed := ← sign? sign, isStruct := rest == ["struct"] }

def Resume.shorthand : Resume → String
  | .guard => "guard"
  | .atPosition => "position"
  | .atLoopHeader => "header"

def Resume.ofShorthand? : String → Option Resume
  | "guard" => some .guard
  | "position" => some .atPosition
  | "header" => some .atLoopHeader
  | _ => none

def CallMeaning.shorthand : CallMeaning → String
  | .none => "none"
  | .arrayCopy => "arraycopy"

def CallMeaning.ofShorthand? : String → Option CallMeaning
  | "none" => some .none
  | "arraycopy" => some .arrayCopy
  | _ => none

/-- A call such as `call:arraycopy:noraise;array:1:4:int:s`. -/
def CallDescriptor.shorthand (call : CallDescriptor) : String :=
  let head := joined ["call", call.meaning.shorthand, if call.canRaise then "raise" else "noraise"]
  ";".intercalate (head :: call.writtenArrays.map ArrayDescriptor.shorthand)

def CallDescriptor.ofShorthand? (source : String) : Option CallDescriptor := do
  let head :: arrays := source.splitOn ";" | none
  let ["call", meaning, raise] := fields head | none
  return {
    meaning := ← CallMeaning.ofShorthand? meaning
    writtenArrays := ← arrays.mapM ArrayDescriptor.ofShorthand?
    canRaise := raise == "raise" }

namespace Descriptor

def shorthand : Descriptor → String
  | .array items => items.shorthand
  | .size object =>
    let vtable := (object.vtable.map fun vtable => toString vtable.toNat).getD "-"
    joined ["size", toString object.typeId, vtable]
  | .call effects => effects.shorthand
  | .guard resume => joined ["guard", resume.shorthand]
  | .target token => joined ["target", toString token]

def ofShorthand? (source : String) : Option Descriptor :=
  match fields source with
  | "array" :: _ => (ArrayDescriptor.ofShorthand? source).map .array
  | "call" :: _ => (CallDescriptor.ofShorthand? source).map .call
  | ["size", typeId, "-"] => do return .size ⟨← typeId.toNat?, none⟩
  | ["size", typeId, vtable] => do
      return .size ⟨← typeId.toNat?, some (UInt64.ofNat (← vtable.toNat?))⟩
  | ["guard", resume] => (Resume.ofShorthand? resume).map .guard
  | ["target", token] => token.toNat?.map .target
  | _ => none

end Descriptor

end LinearTrace
