import TinyScript.Store.Access
import TinyScript.Text.Ident

/-! # Values of a running program

Numbers, texts and truth values are values of their own; arrays and maps are references to storage
together with their type. A value in a slot of type `any` is wrapped once. -/

namespace TinyScript

/-- Values. -/
inductive Value where
  | num (x : Float)
  | str (s : String)
  | bool (b : Bool)
  /-- A value in a slot of type `any`. -/
  | any (inner : Value)
  | array (ref : Nat) (ty : Ty)
  | map (ref : Nat) (ty : Ty)
  | none
  deriving Inhabited

namespace Value

/-- Wraps a value for a slot of type `any`, unless it is wrapped already. -/
def toAny : Value → Value
  | any v => any v
  | v => any v

/-- The value inside a slot of type `any`. -/
def unwrap : Value → Value
  | any v => v
  | v => v

/-- The type that a value carries. -/
def typeOf : Value → Ty
  | num _ => .num
  | str _ => .string
  | bool _ => .bool
  | any _ => .any
  | array _ ty => ty
  | map _ ty => ty
  | none => .none

/-- The value of a variable declared without one. -/
def zero (ty : Ty) (s : Store Value) : Value × Store Value :=
  match ty.kind with
  | .num => (num 0.0, s)
  | .string => (str "", s)
  | .bool => (bool false, s)
  | .any => (any (bool false), s)
  | .array =>
    let (ref, s) := s.newArray #[]
    (array ref ty.unfixed, s)
  | .map =>
    let (ref, s) := s.newMap .empty
    (map ref ty.unfixed, s)
  | .illegal | .none => (none, s)

/-! ### Text -/

/-- A map key as it is written in a program. -/
def keyText (key : String) : String :=
  if Text.isIdent key.toList then key else Text.quote key

/-- The text of a value whose elements and fields have the texts `parts`, with texts and keys quoted or
not. -/
def textBy (s : Store Value) (quoted : Bool) (parts : Value → Option String) : Value → Option String
  | num x => some (Number.text x)
  | str t => some (if quoted then Text.quote t else t)
  | bool b => some (if b then "true" else "false")
  | any v => textBy s quoted parts v
  | array ref _ => do
    let elems ← (s.array ref).toList.mapM parts
    return "[" ++ " ".intercalate elems ++ "]"
  | map ref _ => do
    let fields ← (s.map ref).toList.mapM fun (k, v) =>
      (parts v).map ((if quoted then keyText k else k) ++ ":" ++ ·)
    return "\x7b" ++ " ".intercalate fields ++ "\x7d"
  | none => some ""

/-- The text of a value, unless arrays and maps lie `fuel` levels deep in it. -/
def textWithin (s : Store Value) (quoted : Bool) : (fuel : Nat) → Value → Option String
  | 0 => fun _ => Option.none
  | fuel + 1 => textBy s quoted (textWithin s quoted fuel)

/-- The text that printing a value shows. An array or a map that lies more levels deep than there are
in storage contains itself, and what it is in has no text. -/
def display (s : Store Value) (v : Value) : Option String :=
  textWithin s false (s.size + 1) v

/-- The text of a value with its texts quoted. -/
def quoted (s : Store Value) (v : Value) : Option String :=
  textWithin s true (s.size + 1) v

/-- Values with a separator between them. -/
def joinTexts (s : Store Value) (sep : String) (vs : List Value) : Option String :=
  (vs.mapM (display s)).map sep.intercalate

/-! ### Equality -/

/-- Equality of values whose elements and fields are compared by `parts`. Wrapped values have to be of
the same type. -/
def equalsBy (s : Store Value) (parts : Value → Value → Option Bool) : Value → Value → Option Bool
  | num a, num b => some (a == b)
  | str a, str b => some (a == b)
  | bool a, bool b => some (a == b)
  | any a, any b => if a.typeOf.same b.typeOf then equalsBy s parts a b else some false
  | array a _, array b _ => s.arraysEqual parts a b
  | map a _, map b _ => s.mapsEqual parts a b
  | _, _ => some false

/-- Equality of values, given up where it comes to arrays and maps `fuel` levels deep. -/
def equalsWithin (s : Store Value) : (fuel : Nat) → Value → Value → Option Bool
  | 0 => fun _ _ => Option.none
  | fuel + 1 => equalsBy s (equalsWithin s fuel)

/-- Equality of values. A comparison that comes to its end looks into less pairs of arrays and of maps
inside each other than there are, so the one that has no answer here has none at all. -/
def equals (s : Store Value) (a b : Value) : Option Bool :=
  equalsWithin s ((s.size + 1) * (s.size + 1)) a b

end Value

end TinyScript
