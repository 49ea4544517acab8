import FinLang.Number.Binary

namespace FinLang.Number

-- `digits * 10 ^ exponent`
structure Decimal where
  digits : Nat
  exponent : Int
deriving DecidableEq, Inhabited

-- A positive double and the ends of the interval that rounds to it, all three
-- over one denominator. The ends belong to the interval when the mantissa is
-- even.
structure Rounding where
  low : Nat
  value : Nat
  high : Nat
  denominator : Nat
  closed : Bool
deriving DecidableEq, Inhabited

namespace Rounding

-- Below a power of two the neighbours are closer, except among the smallest
-- numbers.
def ofBinary (mantissa : Nat) (exponent : Int) : Rounding :=
  let below := if mantissa = hiddenBit ∧ minExponent < exponent then 1 else 2
  let scale := Nat.pow 2 (exponent - 2).toNat
  { low := (4 * mantissa - below) * scale
    value := 4 * mantissa * scale
    high := (4 * mantissa + 2) * scale
    denominator := Nat.pow 2 (2 - exponent).toNat
    closed := mantissa % 2 == 0 }

-- Multiplies what is measured, so that points of the grid of multiples of
-- `10 ^ exponent` become multiples of the new denominator.
def onGrid (r : Rounding) (exponent : Int) : Rounding :=
  let up := Nat.pow 10 (-exponent).toNat
  { low := r.low * up
    value := r.value * up
    high := r.high * up
    denominator := r.denominator * Nat.pow 10 exponent.toNat
    closed := r.closed }

def contains (r : Rounding) (point : Nat) : Bool :=
  let p := point * r.denominator
  if r.closed then r.low ≤ p && p ≤ r.high else r.low < p && p < r.high

-- Of the two grid points around the value, the one that reads back; of two,
-- the nearer, the upper one if they are equally near.
def gridPoint? (r : Rounding) : Option Nat :=
  let point := r.value / r.denominator
  let rest := r.value % r.denominator
  match r.contains point, r.contains (point + 1) with
  | true, true => some (if r.denominator ≤ 2 * rest then point + 1 else point)
  | true, false => some point
  | false, true => some (point + 1)
  | false, false => none

def digitCount (n : Nat) : Nat :=
  (Nat.toDigits 10 n).length

-- The value lies below this power of ten, and not below the one before it.
def decimalExponent (r : Rounding) : Int :=
  if r.denominator ≤ r.value then digitCount (r.value / r.denominator)
  else 1 - (digitCount (r.denominator / r.value) : Int)

-- Tries finer and finer grids, as many as the last argument says.
def search (r : Rounding) (exponent : Int) : Nat → Decimal
  | 0 => ⟨(r.onGrid exponent).value / (r.onGrid exponent).denominator, exponent⟩
  | n + 1 =>
    match (r.onGrid exponent).gridPoint? with
    | some point => ⟨point, exponent⟩
    | none => search r (exponent - 1) n

end Rounding

-- The decimal with the fewest digits that reads back as the given double, and
-- of those the nearest to it. The first grid holds the next power of ten alone;
-- seventeen finer ones always suffice.
def shortest (mantissa : Nat) (exponent : Int) : Decimal :=
  let r := Rounding.ofBinary mantissa exponent
  r.search r.decimalExponent 18

end FinLang.Number
