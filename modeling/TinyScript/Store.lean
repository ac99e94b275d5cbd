import TinyScript.Pairs

/-! # Storage of arrays and maps

Arrays and maps are shared: a value holds a reference, and all values with the same reference see
the same elements. References count up from zero and are never given out twice. -/

namespace TinyScript

/-- The arrays and maps of a running program, by reference. -/
structure Store (α : Type) where
  arrays : Array (Array α) := #[]
  maps : Array (Pairs α) := #[]
  deriving Inhabited

namespace Store

variable {α : Type}

/-- The elements of an array. -/
def array (s : Store α) (ref : Nat) : Array α :=
  (s.arrays[ref]?).getD #[]

/-- The pairs of a map. -/
def map (s : Store α) (ref : Nat) : Pairs α :=
  (s.maps[ref]?).getD .empty

/-- Storage for a new array. -/
def newArray (s : Store α) (elems : Array α) : Nat × Store α :=
  (s.arrays.size, { s with arrays := s.arrays.push elems })

/-- Storage for a new map. -/
def newMap (s : Store α) (pairs : Pairs α) : Nat × Store α :=
  (s.maps.size, { s with maps := s.maps.push pairs })

/-- Changes one element of an array. -/
def setElem (s : Store α) (ref i : Nat) (value : α) : Store α :=
  { s with arrays := s.arrays.modify ref (·.setIfInBounds i value) }

/-- Replaces all elements of an array. -/
def setArray (s : Store α) (ref : Nat) (elems : Array α) : Store α :=
  { s with arrays := s.arrays.setIfInBounds ref elems }

/-- Changes the pairs of a map. -/
def modifyMap (s : Store α) (ref : Nat) (f : Pairs α → Pairs α) : Store α :=
  { s with maps := s.maps.modify ref f }

/-- The number of arrays and maps. A walk that goes down through more of them than this has come
back to where it was. -/
def size (s : Store α) : Nat :=
  s.arrays.size + s.maps.size

end Store

/-! ### Comparisons

Arrays and maps can contain themselves, so a comparison of them may go on for ever: `none` stands for
that, and for a comparison that was given up. -/

/-- Whether a test holds for all, which is found out one after the other and only up to the first for
which it does not. -/
def allOf {α : Type} (test : α → Option Bool) : List α → Option Bool
  | [] => some true
  | x :: xs =>
    match test x with
    | some true => allOf test xs
    | answer => answer

namespace Store

variable {α : Type}

/-- Whether two arrays have the same elements. The same array is not looked into. -/
def arraysEqual (s : Store α) (elems : α → α → Option Bool) (p q : Nat) : Option Bool :=
  if p = q then some true
  else if (s.array p).size = (s.array q).size then
    allOf (fun pair => elems pair.1 pair.2) ((s.array p).toList.zip (s.array q).toList)
  else some false

/-- Whether two maps have the same values at the same keys, in any order. -/
def mapsEqual (s : Store α) (fields : α → α → Option Bool) (p q : Nat) : Option Bool :=
  if p = q then some true
  else if (s.map p).size = (s.map q).size then
    allOf (fun pair => ((s.map q).get? pair.1).elim (some false) (fields pair.2)) (s.map p).toList
  else some false

end Store

end TinyScript
