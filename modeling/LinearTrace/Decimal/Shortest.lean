import LinearTrace.Binary64

/-!
# Shortest decimals

The fewest decimal digits that read back as a given positive double, found with
exact natural-number arithmetic. A double `m * 2 ^ q` is the nearest double of
every real between the midpoints to its neighbours, ends included when `m` is
even. The first decimal grid with a point in that interval wins; of two points
on it the nearer one, and of two equally near points the upper one.
-/

namespace LinearTrace.Decimal

/-- A positive decimal `digits * 10 ^ exponent`. -/
structure Scientific where
  digits : Nat
  exponent : Int
  deriving DecidableEq, Repr

/-- A positive binary number `mantissa * 2 ^ exponent`, and whether the neighbour below
is only half as far away as the neighbour above. -/
structure Binary where
  mantissa : Nat
  exponent : Int
  narrowBelow : Bool

/-- The mantissa and exponent of a finite pattern, sign dropped. -/
def Binary.ofPattern (x : Binary64) : Binary :=
  if x.exponentField = 0 then
    ⟨x.fractionField, -1074, false⟩
  else
    ⟨Nat.pow 2 52 + x.fractionField, x.exponentField - 1075,
      x.fractionField = 0 && x.exponentField > 1⟩

/-- Comparison of decimals with quarters of a unit of the binary number's last place,
both scaled to natural numbers. -/
structure Scale where
  quarter : Nat
  grid : Nat

/-- The common scale of `2 ^ (exponent - 2)` and `10 ^ gridExponent`. -/
def Binary.scale (value : Binary) (gridExponent : Int) : Scale where
  quarter := Nat.pow 2 (value.exponent - 2).toNat * Nat.pow 10 (-gridExponent).toNat
  grid := Nat.pow 10 gridExponent.toNat * Nat.pow 2 (2 - value.exponent).toNat

/-- The multiple `count` of the grid lies among the reals that round to the number. -/
def Binary.admits (value : Binary) (scale : Scale) (count : Nat) : Bool :=
  let low := (4 * value.mantissa - if value.narrowBelow then 1 else 2) * scale.quarter
  let high := (4 * value.mantissa + 2) * scale.quarter
  let point := count * scale.grid
  if value.mantissa % 2 = 0 then decide (low ≤ point ∧ point ≤ high)
  else decide (low < point ∧ point < high)

/-- The grid point chosen on one grid, if any rounds to the number. -/
def Binary.onGrid? (value : Binary) (gridExponent : Int) : Option Nat :=
  let scale := value.scale gridExponent
  let exact := 4 * value.mantissa * scale.quarter
  let below := exact / scale.grid
  let above := below + 1
  match value.admits scale below, value.admits scale above with
  | true, true => some (if above * scale.grid - exact ≤ exact - below * scale.grid then above else below)
  | true, false => some below
  | false, true => some above
  | false, false => none

def Binary.leadingExponent (value : Binary) : Int :=
  let whole := value.mantissa * Nat.pow 2 value.exponent.toNat / Nat.pow 2 (-value.exponent).toNat
  if whole = 0 then
    let scaled := value.mantissa * Nat.pow 10 400 / Nat.pow 2 (-value.exponent).toNat
    ((Nat.toDigits 10 scaled).length : Int) - 401
  else
    ((Nat.toDigits 10 whole).length : Int) - 1

/-- The grid search, from the coarsest grid on; `steps` bounds the number of digits. -/
def Binary.search (value : Binary) (gridExponent : Int) : Nat → Scientific
  | 0 => ⟨value.mantissa, value.exponent⟩
  | steps + 1 =>
    match value.onGrid? gridExponent with
    | some count => ⟨count, gridExponent⟩
    | none => value.search (gridExponent - 1) steps

/-- The shortest decimal that reads back as the number: seventeen digits always do. -/
def Binary.shortest (value : Binary) : Scientific :=
  value.search value.leadingExponent 18

end LinearTrace.Decimal
