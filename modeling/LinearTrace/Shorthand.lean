import LinearTrace.LaneType

/-!
# Shorthand for values

A compact text form in which boxes, constants and types are stored. A box is the
letter of its type and its number, a vector box is followed by its shape: `i7`,
`v3:i:4:4:s`. A constant is marked by a letter: `n:5` for a word, `r:4096` for an
address, `d:3ff0000000000000` for the bits of a double. Every not-a-number
pattern is written `d:nan`.
-/

namespace LinearTrace

namespace Shorthand

/-- The fields of a text, separated by colons. -/
def fields (source : String) : List String :=
  source.splitOn ":"

def joined (fields : List String) : String :=
  ":".intercalate fields

def signLetter (signed : Bool) : String :=
  if signed then "s" else "u"

def sign? : String → Option Bool
  | "s" => some true
  | "u" => some false
  | _ => none

def digit? (char : Char) : Option Nat :=
  if char.isDigit then some (char.toNat - '0'.toNat)
  else if 'a' ≤ char ∧ char ≤ 'f' then some (char.toNat - 'a'.toNat + 10)
  else none

/-- The number with the given hexadecimal digits. -/
def hexadecimal? (digits : String) : Option Nat :=
  digits.toList.foldlM (fun value char => return 16 * value + (← digit? char)) 0

/-- A number in a fixed width of hexadecimal digits. -/
def hexadecimal (width value : Nat) : String :=
  let digits := Nat.toDigits 16 value
  String.ofList (List.replicate (width - digits.length) '0' ++ digits)

def double (value : Binary64) : String :=
  if value.isNaN then "nan" else hexadecimal 16 value.bits.toNat

end Shorthand

open Shorthand

/-- A shape such as `i:4:4:s`: kind, number and size of the lanes, sign. -/
def VectorShape.shorthand (shape : VectorShape) : String :=
  joined [LaneType.kindLetter (some shape.kind), toString shape.count.toNat,
    toString shape.itemSize.toNat, signLetter shape.signed]

def LaneKind.ofLetter? : String → Option LaneKind
  | "i" => some .int
  | "f" => some .float
  | _ => none

def VectorShape.ofFields? : List String → Option VectorShape
  | [kind, count, size, sign] => do
      return ⟨← LaneKind.ofLetter? kind, UInt16.ofNat (← count.toNat?),
        UInt8.ofNat (← size.toNat?), ← sign? sign⟩
  | _ => none

/-- A type such as `i` or `v:i:4:4:s`. -/
def ValueType.shorthand (type : ValueType) : String :=
  match type with
  | .vector shape => "v:" ++ shape.shorthand
  | _ => type.letter

def ValueType.ofFields? : List String → Option ValueType
  | ["i"] => some .int
  | ["f"] => some .float
  | ["p"] => some .ref
  | "v" :: shape => (VectorShape.ofFields? shape).map .vector
  | _ => none

/-- A box such as `i7` or `v7:i:4:4:s`. -/
def Box.shorthand (box : Box) : String :=
  match box.type with
  | .vector shape => box.text ++ ":" ++ shape.shorthand
  | _ => box.text

def Box.ofShorthand? (source : String) : Option Box := do
  let head :: shape := fields source | none
  let letter :: digits := head.toList | none
  let id ← (String.ofList digits).toNat?
  return ⟨id, ← ValueType.ofFields? (letter.toString :: shape)⟩

/-- A constant such as `n:5`, `r:0` or `d:3ff0000000000000`. -/
def Const.shorthand : Const → String
  | .int value => "n:" ++ toString value.toInt
  | .float value => "d:" ++ Shorthand.double value
  | .ref address => "r:" ++ toString address.toNat

def Const.ofShorthand? (source : String) : Option Const :=
  match fields source with
  | ["n", digits] => digits.toInt?.map fun value => .int (Int64.ofInt value)
  | ["r", digits] => digits.toNat?.map fun address => .ref (UInt64.ofNat address)
  | ["d", digits] => (hexadecimal? digits).map fun bits => .float ⟨UInt64.ofNat bits⟩
  | _ => none

def Value.shorthand : Value → String
  | .box source => source.shorthand
  | .const literal => literal.shorthand

def Value.ofShorthand? (source : String) : Option Value :=
  (Const.ofShorthand? source).map .const <|> (Box.ofShorthand? source).map .box

/-- A lane type such as `i:4:s`; an undecided kind is a question mark. -/
def LaneType.shorthand (type : LaneType) : String :=
  joined [kindLetter type.kind, toString type.size, signLetter type.signed]

def LaneType.ofShorthand? (source : String) : Option LaneType := do
  let [kind, size, sign] := fields source | none
  return ⟨LaneKind.ofLetter? kind, ← size.toNat?, ← sign? sign⟩

end LinearTrace
