/-! # Binary fractions

A double as sign, mantissa and power of two, so that its exact value can be computed with natural
numbers. -/

namespace TinyScript.Decimal

/-- The value `mantissa * 2 ^ exponent`. -/
structure Binary where
  mantissa : Nat
  exponent : Int
  deriving DecidableEq, Repr

/-- What a double stands for. -/
inductive Parts where
  | nan
  | infinite (negative : Bool)
  | finite (negative : Bool) (magnitude : Binary)
  deriving DecidableEq, Repr

/-- The least exponent of a double. -/
def minExponent : Int := -1074

/-- The mantissa of the least normal double. -/
def hiddenBit : Nat := Nat.pow 2 52

/-- Takes the 64 bits of a double apart. -/
def Parts.ofBits (bits : UInt64) : Parts :=
  let negative := bits.toNat / Nat.pow 2 63 == 1
  let field : Nat := bits.toNat / hiddenBit % Nat.pow 2 11
  let fraction := bits.toNat % hiddenBit
  if field = 2047 then
    if fraction = 0 then .infinite negative else .nan
  else if field = 0 then .finite negative ⟨fraction, minExponent⟩
  else .finite negative ⟨hiddenBit + fraction, (field : Int) - 1 + minExponent⟩

/-- Takes a double apart. -/
def parts (x : Float) : Parts :=
  Parts.ofBits x.toBits

/-- A fraction of natural numbers equal to the binary fraction, as numerator and denominator. -/
def Binary.ratio (b : Binary) : Nat × Nat :=
  if 0 ≤ b.exponent then (b.mantissa * Nat.pow 2 b.exponent.toNat, 1)
  else (b.mantissa, Nat.pow 2 (-b.exponent).toNat)

/-- The value with everything after the point cut off. -/
def Binary.whole (b : Binary) : Nat :=
  b.ratio.1 / b.ratio.2

/-- Whether nothing stands after the point. -/
def Binary.isWhole (b : Binary) : Bool :=
  b.ratio.1 % b.ratio.2 == 0

end TinyScript.Decimal
