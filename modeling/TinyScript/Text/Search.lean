/-! # Searching in text

Finding, splitting at and replacing a part of a text, on lists of characters. Occurrences are found
from the left and do not overlap. -/

namespace TinyScript.Text

/-- What follows `part` in `cs`, if `cs` starts with it. -/
def after? : (part cs : List Char) → Option (List Char)
  | [], cs => some cs
  | _ :: _, [] => none
  | p :: ps, c :: cs => if p = c then after? ps cs else none

/-- Where `part` first occurs in `cs`, counted in characters. -/
def find? (part : List Char) : List Char → Option Nat
  | [] => if part.isEmpty then some 0 else none
  | c :: cs => if (after? part (c :: cs)).isSome then some 0 else (find? part cs).map (· + 1)

/-- The pieces of `cs` between the occurrences of `sep`. The first `skip` characters belong to an
occurrence already found, and `piece` is the piece under way, reversed. -/
def splitFrom (sep : List Char) : (skip : Nat) → (piece cs : List Char) → List (List Char)
  | _, piece, [] => [piece.reverse]
  | skip + 1, piece, _ :: cs => splitFrom sep skip piece cs
  | 0, piece, c :: cs =>
    if (after? sep (c :: cs)).isSome then piece.reverse :: splitFrom sep (sep.length - 1) [] cs
    else splitFrom sep 0 (c :: piece) cs

/-- The pieces of `cs` between the occurrences of `sep`, or its characters if `sep` is empty. -/
def split (sep cs : List Char) : List (List Char) :=
  if sep.isEmpty then cs.map ([·]) else splitFrom sep 0 [] cs

/-- The pieces with `sep` between them. -/
def join (sep : List Char) (pieces : List (List Char)) : List Char :=
  sep.intercalate pieces

/-- `cs` with `new` for every occurrence of `old`. The first `skip` characters belong to an occurrence
already replaced, and `done` is what comes before `cs`, reversed. -/
def replaceFrom (old new : List Char) : (skip : Nat) → (done cs : List Char) → List Char
  | _, done, [] => done.reverse
  | skip + 1, done, _ :: cs => replaceFrom old new skip done cs
  | 0, done, c :: cs =>
    if (after? old (c :: cs)).isSome then
      replaceFrom old new (old.length - 1) (new.reverse ++ done) cs
    else replaceFrom old new 0 (c :: done) cs

/-- `cs` with `new` for every occurrence of `old`. The empty text occurs before every character and
at the end. -/
def replace (old new cs : List Char) : List Char :=
  if old.isEmpty then new ++ cs.flatMap (· :: new) else replaceFrom old new 0 [] cs

/-- Whether `cs` ends with `part`. -/
def endsWith (cs part : List Char) : Bool :=
  (after? part.reverse cs.reverse).isSome

end TinyScript.Text
