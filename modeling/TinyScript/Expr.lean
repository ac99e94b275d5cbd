import TinyScript.Number
import TinyScript.Signature

/-! # Expressions

Typed expressions. Every node has the token it is reported at and its type, and keeps what its
canonical layout needs: whether a binary expression is written without spaces, and how the elements
of a literal are spread over lines. -/

namespace TinyScript

/-- Operators with one operand. -/
inductive UnaryOp where
  | neg | not
  deriving DecidableEq, Repr, Inhabited

def UnaryOp.text : UnaryOp → String
  | .neg => "-"
  | .not => "!"

/-- Operators with two operands. -/
inductive BinaryOp where
  | or | and
  | eq | notEq | lt | gt | ltEq | gtEq
  | add | sub | mul | div | rem
  deriving DecidableEq, Repr, Inhabited

namespace BinaryOp

def text : BinaryOp → String
  | .or => "or" | .and => "and"
  | .eq => "==" | .notEq => "!=" | .lt => "<" | .gt => ">" | .ltEq => "<=" | .gtEq => ">="
  | .add => "+" | .sub => "-" | .mul => "*" | .div => "/" | .rem => "%"

/-- Whether the result is a truth value whatever the operands are. -/
def isComparison : BinaryOp → Bool
  | .eq | .notEq | .lt | .gt | .ltEq | .gtEq => true
  | _ => false

/-- The operator that a token stands for between two operands. -/
def ofToken? : TokenKind → Option BinaryOp
  | .or => some .or | .and => some .and
  | .eq => some .eq | .notEq => some .notEq
  | .lt => some .lt | .gt => some .gt | .ltEq => some .ltEq | .gtEq => some .gtEq
  | .plus => some .add | .minus => some .sub
  | .asterisk => some .mul | .slash => some .div | .percent => some .rem
  | _ => none

end BinaryOp

/-- What stands on the lines of an array or map literal. -/
inductive LayoutItem where
  | element
  | newline
  /-- A comment with the end of its line. -/
  | comment (text : String)
  deriving DecidableEq, Repr, Inhabited

/-- The token that a node is reported at, and its type. -/
structure Mark where
  token : Token
  ty : Ty
  deriving DecidableEq, Repr, Inhabited

/-- Expressions. -/
inductive Expr where
  | var (mark : Mark) (name : String)
  | num (mark : Mark) (value : Float)
  | str (mark : Mark) (value : String)
  | bool (mark : Mark) (value : Bool)
  | array (mark : Mark) (layout : List LayoutItem) (elems : List Expr)
  | map (mark : Mark) (layout : List LayoutItem) (pairs : List (String × Expr))
  | call (mark : Mark) (name : String) (args : List Expr) (result : Ty)
  | unary (mark : Mark) (op : UnaryOp) (operand : Expr)
  | binary (mark : Mark) (op : BinaryOp) (tight : Bool) (left right : Expr)
  | index (mark : Mark) (left key : Expr)
  | slice (mark : Mark) (left : Expr) (start stop : Option Expr)
  | dot (mark : Mark) (left : Expr) (key : String)
  | group (mark : Mark) (inner : Expr)
  /-- A check that a value of type `any` holds a value of the node's type. -/
  | assert (mark : Mark) (left : Expr)
  /-- A value on its way into a slot of type `any`. -/
  | any (mark : Mark) (inner : Expr)
  deriving Inhabited

namespace Expr

def mark : Expr → Mark
  | var m _ | num m _ | str m _ | bool m _ | array m _ _ | map m _ _ | call m _ _ _ | unary m _ _
  | binary m _ _ _ _ | index m _ _ | slice m _ _ _ | dot m _ _ | group m _ | assert m _
  | any m _ => m

/-- The token that the expression is reported at. -/
def token (e : Expr) : Token :=
  e.mark.token

/-- The type of the expression. -/
def ty (e : Expr) : Ty :=
  e.mark.ty

/-- Whether the expression denotes storage that can be assigned to. -/
def isAssignable : Expr → Bool
  | var .. => true
  | index _ left _ => left.isAssignable
  | dot _ left _ => left.isAssignable
  | _ => false

/-- A variable read at a token. Its type is marked, because it denotes storage. -/
def ofVar (v : Var) (token : Token) : Expr :=
  var ⟨token, v.ty.fixed⟩ v.name

end Expr

/-- What a `for` loop runs through. -/
inductive Range where
  /-- Numbers from `start` up or down to `stop`, which is left out. -/
  | step (start : Option Expr) (stop : Expr) (stride : Option Expr)
  /-- The elements of an array, the characters of a string or the keys of a map. -/
  | over (e : Expr)
  deriving Inhabited

end TinyScript
