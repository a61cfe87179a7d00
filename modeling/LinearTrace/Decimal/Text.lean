import LinearTrace.Decimal.Shortest

/-!
# Text of float constants

Float constants are written with the fewest digits that read back. From
`0.0001` up to, but not including, `10 ^ 16` they are written positionally and
always with a point; outside that range with an exponent.
-/

namespace LinearTrace.Decimal

/-- How decimals are laid out. -/
structure Layout where
  /-- Smallest exponent of the leading digit that is written positionally. -/
  leastPositional : Int
  /-- Largest exponent of the leading digit that is written positionally. -/
  greatestPositional : Int

/-- The layout of constants in trace text. -/
def traceLayout : Layout :=
  ⟨-4, 15⟩

def significantDigits (digits : Nat) : List Char :=
  ((Nat.toDigits 10 digits).reverse.dropWhile (· == '0')).reverse

/-- Digits with a point after `wholeCount` of them, both parts non-empty. -/
def positional (digits : List Char) (wholeCount : Int) : String :=
  if wholeCount ≤ 0 then
    "0." ++ String.ofList (List.replicate (-wholeCount).toNat '0' ++ digits)
  else
    let count := wholeCount.toNat
    let whole := digits.take count ++ List.replicate (count - digits.length) '0'
    let fraction := digits.drop count
    String.ofList whole ++ "." ++ (if fraction.isEmpty then "0" else String.ofList fraction)

def scientific (digits : List Char) (leading : Int) : String :=
  let mark := "e" ++ toString leading
  match digits with
  | [] => "0" ++ mark
  | [digit] => String.ofList [digit] ++ mark
  | digit :: rest => String.ofList (digit :: '.' :: rest) ++ mark

def Scientific.text (layout : Layout) (decimal : Scientific) : String :=
  let leading := ((Nat.toDigits 10 decimal.digits).length : Int) - 1 + decimal.exponent
  let digits := significantDigits decimal.digits
  if layout.leastPositional ≤ leading ∧ leading ≤ layout.greatestPositional then
    positional digits (leading + 1)
  else
    scientific digits leading

end LinearTrace.Decimal

namespace LinearTrace.Binary64

def text (x : Binary64) : String :=
  if x.isNaN then "NaN"
  else
    let magnitude :=
      if !x.isFinite then "inf"
      else if x.isZero then "0.0"
      else (Decimal.Binary.ofPattern x).shortest.text Decimal.traceLayout
    if x.isNegative then "-" ++ magnitude else magnitude

end LinearTrace.Binary64
