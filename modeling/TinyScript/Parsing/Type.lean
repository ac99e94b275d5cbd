import TinyScript.Parsing.State

/-! # Reading types -/

namespace TinyScript.Parsing

/-- Reads a type by a parser for the type that is nested in it. -/
def typeBy (inner : Parse Ty) : Parse Ty := do
  let first ← kind
  advance
  match first with
  | .num => return .num
  | .string => return .string
  | .bool => return .bool
  | .any => return .any
  | .lBracket =>
    if (← kind) ≠ .rBracket then return .illegal
    advance
    let elem ← inner
    return if elem.kind = .illegal then .illegal else .array elem
  | .lCurly =>
    if (← kind) ≠ .rCurly then return .illegal
    advance
    let elem ← inner
    return if elem.kind = .illegal then .illegal else .map elem
  | _ => return .illegal

/-- Reads a type nested at most `fuel` deep. -/
def typeWithin : (fuel : Nat) → Parse Ty
  | 0 => return .illegal
  | fuel + 1 => typeBy (typeWithin fuel)

/-- Reads a type. What is no type is illegal, and nothing is reported. -/
def type : Parse Ty := do
  typeWithin (← get).fuel

end TinyScript.Parsing
