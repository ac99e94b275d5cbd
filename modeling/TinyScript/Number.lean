import TinyScript.Decimal.Fixed
import TinyScript.Decimal.Reader

/-! # Numbers of the language

The operations on doubles that the language has beyond arithmetic: their text, the remainder,
and their integer values. -/

namespace TinyScript.Number
open Decimal

/-- The text of a number: all digits, as few as read back, and never an exponent. -/
def text (x : Float) : String :=
  match parts x with
  | .nan => "NaN"
  | .infinite negative => if negative then "-Inf" else "+Inf"
  | .finite negative b =>
    let digits := if b.mantissa = 0 then "0" else b.shortest.positional
    if negative then "-" ++ digits else digits

/-- The text of a number with a fixed number of places. -/
def fixedText (x : Float) (places : Nat) : String :=
  match parts x with
  | .nan => "NaN"
  | .infinite negative => if negative then "-inf" else "inf"
  | .finite negative b => (if negative then "-" else "") ++ b.fixed places

/-- The remainder of exact division toward zero, with the sign of the dividend. -/
def rem (x y : Float) : Float :=
  match parts x, parts y with
  | .finite negative a, .finite _ b =>
    if b.mantissa = 0 then 0.0 / 0.0
    else
      let e := min a.exponent b.exponent
      let p := a.mantissa * Nat.pow 2 (a.exponent - e).toNat
      let q := b.mantissa * Nat.pow 2 (b.exponent - e).toNat
      let r := (Float.ofNat (p % q)).scaleB e
      if negative then -r else r
  | .finite .., .infinite _ => x
  | _, _ => 0.0 / 0.0

/-- The smaller number. A number wins over none, and the first of two equal ones. -/
def least (x y : Float) : Float :=
  if x.isNaN then y else if y < x then y else x

/-- The larger number. A number wins over none, and the first of two equal ones. -/
def greatest (x y : Float) : Float :=
  if x.isNaN then y else if x < y then y else x

/-- The number with its fraction cut off; zero for what is not finite. -/
def whole (x : Float) : Int :=
  match parts x with
  | .finite negative b => if negative then -(b.whole : Int) else b.whole
  | _ => 0

/-- Cuts a number to an integer from `lo` to `hi`. Infinities go to the ends. -/
def clamp (lo hi : Int) (x : Float) : Int :=
  match parts x with
  | .infinite negative => if negative then lo else hi
  | _ => max lo (min hi (whole x))

/-- The integer in 64 bits nearest to the number with its fraction cut off. -/
def toInt64 (x : Float) : Int :=
  clamp (-9223372036854775808) 9223372036854775807 x

/-- The integer in 32 bits nearest to the number with its fraction cut off. -/
def toInt32 (x : Float) : Int :=
  clamp (-2147483648) 2147483647 x

/-- Whether the number is an integer. -/
def isInteger (x : Float) : Bool :=
  match parts x with
  | .finite _ b => b.isWhole
  | _ => false

end TinyScript.Number
