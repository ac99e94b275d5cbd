import TinyScript.Datum

/-! # Values of the stack machine

Values without types: what the machine has on its stack and in its slots. A running loop has its
iterator on the stack. -/

namespace TinyScript.Bytecode

/-- What a running loop still has to run through. -/
inductive RangeIter where
  | step (next stop stride : Float)
  /-- The elements of an array from a place on, as they are when their turn comes. -/
  | array (ref next : Nat)
  | text (rest : List Char)
  /-- Keys, of which those that have left the map are skipped. -/
  | map (ref : Nat) (keys : List String)
  deriving Inhabited

/-- Values of the machine. -/
inductive Cell where
  | num (x : Float)
  | bool (b : Bool)
  | str (s : String)
  | array (ref : Nat)
  | map (ref : Nat)
  | none
  | range (iter : RangeIter)
  deriving Inhabited

namespace Cell

def typeName : Cell → String
  | num _ => "num" | bool _ => "bool" | str _ => "string" | array _ => "array" | map _ => "map"
  | none => "none" | range _ => "range"

/-- The text of a value whose elements and fields have the texts `parts`. -/
def textBy (s : Store Cell) (parts : Cell → Option String) : Cell → Option String
  | num x => some (Number.text x)
  | bool b => some (if b then "true" else "false")
  | str t => some t
  | array ref => do
    let elems ← (s.array ref).toList.mapM parts
    return "[" ++ " ".intercalate elems ++ "]"
  | map ref => do
    let fields ← (s.map ref).toList.mapM fun (k, v) => (parts v).map (k ++ ":" ++ ·)
    return "\x7b" ++ " ".intercalate fields ++ "\x7d"
  | none => some ""
  | range _ => some "<range>"

/-- The text of a value, unless arrays and maps lie `fuel` levels deep in it. -/
def textWithin (s : Store Cell) : (fuel : Nat) → Cell → Option String
  | 0 => fun _ => Option.none
  | fuel + 1 => textBy s (textWithin s fuel)

/-- The text of a value. What contains itself has none. -/
def display (s : Store Cell) (c : Cell) : Option String :=
  textWithin s (s.size + 1) c

/-- Equality of values whose elements and fields are compared by `parts`. Iterators are equal to nothing,
and a field of the map on the right comes first. -/
def equalsBy (s : Store Cell) (parts : Cell → Cell → Option Bool) : Cell → Cell → Option Bool
  | num a, num b => some (a == b)
  | bool a, bool b => some (a == b)
  | str a, str b => some (a == b)
  | array a, array b => s.arraysEqual parts a b
  | map a, map b => s.mapsEqual (fun x y => parts y x) a b
  | none, none => some true
  | _, _ => some false

/-- Equality of values, given up where it comes to arrays and maps `fuel` levels deep. -/
def equalsWithin (s : Store Cell) : (fuel : Nat) → Cell → Cell → Option Bool
  | 0 => fun _ _ => Option.none
  | fuel + 1 => equalsBy s (equalsWithin s fuel)

/-- Equality of values. A comparison that comes to its end looks into less pairs of arrays and of maps
inside each other than there are, so the one that has no answer here has none at all. -/
def equals (s : Store Cell) (a b : Cell) : Option Bool :=
  equalsWithin s ((s.size + 1) * (s.size + 1)) a b

end Cell

namespace RangeIter

/-- Starts running through an array, a text or a map. -/
def over? (s : Store Cell) : Cell → Option RangeIter
  | .array ref => some (array ref 0)
  | .str t => some (text t.toList)
  | .map ref => some (map ref (s.map ref).keys)
  | _ => none

/-- The next value, if there is one, and what is left after it. -/
def next (s : Store Cell) : RangeIter → Option Cell × RangeIter
  | step x stop stride =>
    if (stride > 0.0 && x < stop) || (stride < 0.0 && x > stop) then
      (some (.num x), step (x + stride) stop stride)
    else (none, step x stop stride)
  | array ref i =>
    match (s.array ref)[i]? with
    | some c => (some c, array ref (i + 1))
    | Option.none => (none, array ref i)
  | text [] => (none, text [])
  | text (c :: cs) => (some (.str (String.singleton c)), text cs)
  | map ref keys =>
    match keys.dropWhile fun k => !(s.map ref).contains k with
    | [] => (none, map ref [])
    | k :: ks => (some (.str k), map ref ks)

end RangeIter

/-! ### Data from outside -/

mutual

/-- The value of the machine for a datum, without its types, with storage for arrays and maps. -/
def ofDatum (s : Store Cell) : Datum → Cell × Store Cell
  | .num x => (.num x, s)
  | .str t => (.str t, s)
  | .bool b => (.bool b, s)
  | .any inner => ofDatum s inner
  | .array _ elems =>
    let (cs, s) := ofData s elems
    let (ref, s) := s.newArray cs.toArray
    (.array ref, s)
  | .map _ pairs =>
    let (ps, s) := ofDataPairs s .empty pairs
    let (ref, s) := s.newMap ps
    (.map ref, s)
  | .none => (.none, s)

/-- The values of the machine for data, with storage for all of them. -/
def ofData (s : Store Cell) : List Datum → List Cell × Store Cell
  | [] => ([], s)
  | d :: ds =>
    let (c, s) := ofDatum s d
    let (cs, s) := ofData s ds
    (c :: cs, s)

/-- The pairs for data, after the pairs `done`. -/
def ofDataPairs (s : Store Cell) (done : Pairs Cell) :
    List (String × Datum) → Pairs Cell × Store Cell
  | [] => (done, s)
  | (key, d) :: ds =>
    let (c, s) := ofDatum s d
    ofDataPairs s (done.insert key c) ds

end

end TinyScript.Bytecode
