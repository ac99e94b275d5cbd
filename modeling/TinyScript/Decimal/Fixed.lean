import TinyScript.Decimal.Shortest

/-! # A fixed number of places

A double written with a given number of digits after the point, rounded from its exact value. A
half goes to the even neighbour. -/

namespace TinyScript.Decimal

/-- The natural number nearest to `p / q`, the even one of two equally near. -/
def roundHalfEven (p q : Nat) : Nat :=
  let c := p / q
  let rest := 2 * (p % q)
  if q < rest ∨ (rest = q ∧ c % 2 = 1) then c + 1 else c

/-- Writes a binary fraction with `places` digits after the point. -/
def Binary.fixed (b : Binary) (places : Nat) : String :=
  let (p, q) := b.ratio
  let n := roundHalfEven (p * Nat.pow 10 places) q
  let (whole, fraction) := pointed (Nat.toDigits 10 n) places
  if places = 0 then String.ofList whole else String.ofList (whole ++ '.' :: fraction)

end TinyScript.Decimal
