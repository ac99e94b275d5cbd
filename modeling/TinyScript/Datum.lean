import TinyScript.Value

/-! # Data from outside

Values as a host gives them: trees that hold their elements, before they get storage. -/

namespace TinyScript

/-- Values without storage. -/
inductive Datum where
  | num (x : Float)
  | str (s : String)
  | bool (b : Bool)
  | any (inner : Datum)
  | array (ty : Ty) (elems : List Datum)
  | map (ty : Ty) (pairs : List (String × Datum))
  | none
  deriving Inhabited

mutual

/-- The value with storage for its arrays and maps. -/
def Datum.toValue (s : Store Value) : Datum → Value × Store Value
  | .num x => (.num x, s)
  | .str t => (.str t, s)
  | .bool b => (.bool b, s)
  | .any inner =>
    let (v, s) := inner.toValue s
    (v.toAny, s)
  | .array ty elems =>
    let (vs, s) := Datum.toValues s elems
    let (ref, s) := s.newArray vs.toArray
    (.array ref ty, s)
  | .map ty pairs =>
    let (ps, s) := Datum.toPairs s .empty pairs
    let (ref, s) := s.newMap ps
    (.map ref ty, s)
  | .none => (.none, s)

/-- The values with storage for all of them. -/
def Datum.toValues (s : Store Value) : List Datum → List Value × Store Value
  | [] => ([], s)
  | d :: ds =>
    let (v, s) := d.toValue s
    let (vs, s) := Datum.toValues s ds
    (v :: vs, s)

/-- The pairs with storage for their values, after the pairs `done`. -/
def Datum.toPairs (s : Store Value) (done : Pairs Value) :
    List (String × Datum) → Pairs Value × Store Value
  | [] => (done, s)
  | (key, d) :: ds =>
    let (v, s) := d.toValue s
    Datum.toPairs s (done.insert key v) ds

end

end TinyScript
