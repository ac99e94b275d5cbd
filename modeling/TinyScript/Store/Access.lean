import TinyScript.Index
import TinyScript.Store

/-! # Elements and fields in storage

Access to arrays by numbers and to maps by keys, as programs write it. -/

namespace TinyScript.Store

variable {α : Type}

/-- The place that a number denotes in an array. -/
def placeOf (s : Store α) (ref : Nat) (x : Float) : Except Panic Nat :=
  Index.resolve x (s.array ref).size false

/-- One element of an array. -/
def elemAt (s : Store α) (ref : Nat) (x : Float) : Except Panic α := do
  let i ← s.placeOf ref x
  match (s.array ref)[i]? with
  | some v => .ok v
  | none => .error (.bounds i)

/-- Some of the elements of an array. -/
def sliceOf (s : Store α) (ref : Nat) (start stop : Option Float) : Except Panic (Array α) := do
  let elems := s.array ref
  let (a, b) ← Index.slice start stop elems.size
  return elems.extract a b

/-- The value of a key of a map. -/
def fieldOf (s : Store α) (ref : Nat) (key : String) : Except Panic α :=
  match (s.map ref).get? key with
  | some v => .ok v
  | none => .error (.mapKey key)

end TinyScript.Store
