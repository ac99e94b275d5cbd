import TinyScript.Expr

/-! # Expressions with all their structure

A form of expressions for inspection: operands are in parentheses, calls have theirs, and wrapped
values show. -/

namespace TinyScript.Expr

/-- Texts with a separator between them. -/
def commaList (texts : List String) : String :=
  ", ".intercalate texts

mutual

/-- The expression with all its structure. -/
def display : Expr → String
  | var _ name => name
  | num _ value => Number.text value
  | str _ value => Text.quote value
  | bool _ value => if value then "true" else "false"
  | array _ _ elems => "[" ++ commaList (displayAll elems) ++ "]"
  | map _ _ pairs => "\x7b" ++ commaList (displayPairs pairs) ++ "\x7d"
  | call _ name args _ => name ++ "(" ++ commaList (displayAll args) ++ ")"
  | unary _ op operand => "(" ++ op.text ++ operand.display ++ ")"
  | binary _ op _ left right =>
    let sep := if op = .and ∨ op = .or then " " else ""
    "(" ++ left.display ++ sep ++ op.text ++ sep ++ right.display ++ ")"
  | index _ left key => "(" ++ left.display ++ "[" ++ key.display ++ "])"
  | slice _ left start stop =>
    "(" ++ left.display ++ "[" ++ displayOption "" start ++ ":" ++ displayOption "" stop ++ "])"
  | dot _ left key => "(" ++ left.display ++ "." ++ key ++ ")"
  | group _ inner => inner.display
  | assert m left => "(" ++ left.display ++ ".(" ++ m.ty.display ++ "))"
  | any _ inner => "any(" ++ inner.display ++ ")"

def displayAll : List Expr → List String
  | [] => []
  | e :: es => e.display :: displayAll es

def displayPairs : List (String × Expr) → List String
  | [] => []
  | (k, e) :: ps => (k ++ ":" ++ e.display) :: displayPairs ps

/-- The expression, or a text for a missing one. -/
def displayOption (missing : String) : Option Expr → String
  | none => missing
  | some e => e.display

end

end TinyScript.Expr

namespace TinyScript

/-- The range with all its structure. Missing bounds show their default. -/
def Range.display : Range → String
  | .step start stop stride =>
    Expr.displayOption "0" start ++ " " ++ stop.display ++ " " ++ Expr.displayOption "1" stride
  | .over e => e.display

end TinyScript
