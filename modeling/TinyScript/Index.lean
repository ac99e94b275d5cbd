import TinyScript.Failure

/-! # Indices

Indices count from the front, and negative ones from the end. -/

namespace TinyScript.Index

/-- The place that integer `i` denotes in a sequence of `len` elements. A bound of a slice may also
denote the place after the last element. -/
def resolveInt (i : Int) (len : Nat) (isBound : Bool) : Except Panic Nat :=
  let last : Int := if isBound then len else len - 1
  if i < -(len : Int) ∨ last < i then .error (.bounds i)
  else if i < 0 then .ok ((len : Int) + i).toNat
  else .ok i.toNat

/-- The place that a number denotes in a sequence of `len` elements. -/
def resolve (x : Float) (len : Nat) (isBound : Bool) : Except Panic Nat :=
  if Number.isInteger x then resolveInt (Number.toInt64 x) len isBound
  else .error (.indexValue x)

/-- The bound of a slice, or a default where it is left out. -/
def bound (x : Option Float) (len missing : Nat) : Except Panic Nat :=
  match x with
  | some x => resolve x len true
  | none => .ok missing

/-- The places between which a slice lies. -/
def slice (start stop : Option Float) (len : Nat) : Except Panic (Nat × Nat) := do
  let a ← bound start len 0
  let b ← bound stop len len
  if b < a then .error (.slice a b) else .ok (a, b)

/-- One character of a text, as a text. -/
def charAt (t : String) (x : Float) : Except Panic String := do
  let cs := t.toList
  let i ← resolve x cs.length false
  return String.ofList ((cs.drop i).take 1)

/-- A part of a text. -/
def sliceText (t : String) (start stop : Option Float) : Except Panic String := do
  let cs := t.toList
  let (a, b) ← slice start stop cs.length
  return String.ofList ((cs.drop a).take (b - a))

end TinyScript.Index
