import TinyScript.Decimal.Binary

/-! # The fewest digits that read back

The shortest decimal that rounds to a given double, and of those with equally many digits the one
nearest to it. Every test is exact, in natural numbers. -/

namespace TinyScript.Decimal

/-- The value `digits * 10 ^ exponent`. -/
structure Numeral where
  digits : Nat
  exponent : Int
  deriving DecidableEq, Repr

/-- The reals that round to one double, as numerators over a common denominator: the ends of the
interval, whether they belong to it, and the double itself. -/
structure Rounding where
  low : Nat
  value : Nat
  high : Nat
  denominator : Nat
  closed : Bool

/-- The reals that round to a double. Below a power of two the next double is half as far away. -/
def Binary.rounding (b : Binary) : Rounding :=
  let near := if b.mantissa = hiddenBit ∧ minExponent < b.exponent then 1 else 2
  let (unit, denominator) := Binary.ratio ⟨1, b.exponent - 2⟩
  { low := (4 * b.mantissa - near) * unit
    value := 4 * b.mantissa * unit
    high := (4 * b.mantissa + 2) * unit
    denominator
    closed := b.mantissa % 2 == 0 }

/-- The number of decimal digits of `n`; zero has one. -/
def digitCount (n : Nat) : Nat :=
  (Nat.toDigits 10 n).length

/-- The `k` with `10 ^ (k - 1) ≤ p / q < 10 ^ k`, for positive `p` and `q`. -/
def pointPosition (p q : Nat) : Int :=
  if q ≤ p then digitCount (p / q)
  else
    let t := digitCount (q / p)
    if q = p * Nat.pow 10 (t - 1) then 2 - (t : Int) else 1 - (t : Int)

/-- The decimals with the given exponent that are nearest to the double from below and above, as
far as they round to it; the nearer one if both do, and the upper one of two equally near. -/
def Rounding.onGrid? (r : Rounding) (exponent : Int) : Option Numeral :=
  -- numerators over the denominator of the grid
  let up := Nat.pow 10 (-exponent).toNat
  let unit := r.denominator * Nat.pow 10 exponent.toNat
  let value := r.value * up
  let c := value / unit
  let below := if r.closed then r.low * up ≤ c * unit else r.low * up < c * unit
  let above := if r.closed then (c + 1) * unit ≤ r.high * up else (c + 1) * unit < r.high * up
  if below ∧ above then
    if (2 * c + 1) * unit ≤ 2 * value then some ⟨c + 1, exponent⟩ else some ⟨c, exponent⟩
  else if below then some ⟨c, exponent⟩
  else if above then some ⟨c + 1, exponent⟩
  else none

/-- Seventeen digits are enough for every double. -/
def maxDigits : Nat := 17

/-- The shortest decimal that rounds to a positive double. -/
def Binary.shortest (b : Binary) : Numeral :=
  let r := b.rounding
  let k := pointPosition r.value r.denominator
  let found := (List.range maxDigits).findSome? fun n => r.onGrid? (k - (n + 1 : Nat))
  found.getD ⟨b.whole, 0⟩

/-! ### Writing a decimal without an exponent -/

/-- Drops the zeros at the end of a digit list. -/
def stripZeros (ds : List Char) : List Char :=
  (ds.reverse.dropWhile (· == '0')).reverse

/-- Digits with a point before the last `places` of them, and at least one digit before it. -/
def pointed (ds : List Char) (places : Nat) : List Char × List Char :=
  let ds := List.replicate (places + 1 - ds.length) '0' ++ ds
  (ds.take (ds.length - places), ds.drop (ds.length - places))

/-- Writes a decimal with all its digits, no exponent and no zeros at the end of the fraction. -/
def Numeral.positional (d : Numeral) : String :=
  if 0 ≤ d.exponent then toString (d.digits * Nat.pow 10 d.exponent.toNat)
  else
    let (whole, fraction) := pointed (Nat.toDigits 10 d.digits) (-d.exponent).toNat
    let fraction := stripZeros fraction
    if fraction.isEmpty then String.ofList whole else String.ofList (whole ++ '.' :: fraction)

end TinyScript.Decimal
