import TinyScript.Decimal.Binary

/-! # Reading numbers

A number is a sign, digits with a point anywhere among them, and a power of ten; or it is one of
the words for infinity and for no number, in any case of letters. -/

namespace TinyScript.Decimal

/-- What a number text says. -/
inductive Reading where
  | nan
  | infinite (negative : Bool)
  | finite (negative : Bool) (digits : Nat) (exponent : Int)
  deriving DecidableEq, Repr

/-- The number that some digits stand for. -/
def digitsValue (ds : List Char) : Nat :=
  ds.foldl (fun n d => n * 10 + (d.toNat - 48)) 0

/-- Reads the power of ten at the end of a number: nothing, or a mark, a sign and digits. -/
def readExponent? : List Char → Option Int
  | [] => some 0
  | e :: rest =>
    if e = 'e' ∨ e = 'E' then
      let negative := rest.head? = some '-'
      let ds := if negative ∨ rest.head? = some '+' then rest.tail else rest
      if ds.isEmpty ∨ !ds.all Char.isDigit then none
      else if negative then some (-(digitsValue ds : Int))
      else some (digitsValue ds)
    else none

/-- Reads digits with an optional point and power of ten. -/
def readFinite? (negative : Bool) (cs : List Char) : Option Reading :=
  let whole := cs.takeWhile Char.isDigit
  let rest := cs.dropWhile Char.isDigit
  let hasPoint := rest.head? = some '.'
  let fraction := if hasPoint then rest.tail.takeWhile Char.isDigit else []
  let rest := if hasPoint then rest.tail.dropWhile Char.isDigit else rest
  if whole.isEmpty ∧ fraction.isEmpty then none
  else
    (readExponent? rest).map fun e =>
      .finite negative (digitsValue (whole ++ fraction)) (e - fraction.length)

/-- Reads a number. -/
def read? (s : String) : Option Reading :=
  let cs := s.toList
  let negative := cs.head? = some '-'
  let body := if negative ∨ cs.head? = some '+' then cs.tail else cs
  match readFinite? negative body with
  | some r => some r
  | none =>
    let word := String.ofList (body.map Char.toLower)
    if word = "inf" ∨ word = "infinity" then some (.infinite negative)
    else if word = "nan" then some .nan
    else none

/-- The double nearest to `digits * 10 ^ exponent`. Exponents far outside the range of doubles are
settled without computing the power. -/
def nearest (digits : Nat) (exponent : Int) : Float :=
  let top : Int := (Nat.toDigits 10 digits).length + exponent
  if digits = 0 ∨ top < -400 then 0.0
  else if 400 < top then 1.0 / 0.0
  else Float.ofScientific digits (exponent < 0) exponent.natAbs

/-- The double nearest to what a text says. -/
def Reading.toFloat : Reading → Float
  | .nan => 0.0 / 0.0
  | .infinite negative => if negative then -1.0 / 0.0 else 1.0 / 0.0
  | .finite negative digits exponent =>
    if negative then -(nearest digits exponent) else nearest digits exponent

/-- Reads a number as a double. -/
def readFloat? (s : String) : Option Float :=
  (read? s).map Reading.toFloat

end TinyScript.Decimal
