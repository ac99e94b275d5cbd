import TinyScript.Stmt
import TinyScript.Text.Blank

/-! # The canonical layout of a program

Programs written with four spaces of indentation a level, single blanks, at most one blank line in
a row, and blank lines around functions and event handlers. Comments and the line structure of
literals are kept. A program is laid out as words, which are the tokens and blanks of its text. -/

namespace TinyScript

/-- A token or a blank of a text. -/
inductive Word where
  | token (kind : TokenKind) (literal : String)
  /-- A space and some more of them. -/
  | blank (more : Nat)
  deriving DecidableEq, Repr, Inhabited

namespace Word

/-- A token that is always written the same way. -/
def sign (kind : TokenKind) : Word :=
  token kind ""

def ident (name : String) : Word :=
  token .ident name

/-- The single blank between two tokens. -/
def space : Word :=
  blank 0

def newline : Word :=
  sign .nl

/-- The word as it is written in a program. -/
def text : Word → String
  | token kind literal => Token.format ⟨kind, literal, .start⟩
  | blank more => String.join (List.replicate (more + 1) " ")

/-- The text made of some words. -/
def join (ws : List Word) : String :=
  String.join (ws.map text)

end Word

namespace Layout
open Word

/-- The indentation of a nesting level. -/
def indent : (level : Nat) → List Word
  | 0 => []
  | level + 1 => [blank (4 * level + 3)]

/-- A comment at the end of a line. -/
def trailing : Option String → List Word
  | none => []
  | some comment => [space, token .comment (Text.trim comment)]

/-- The brackets and the name of a kind of types. -/
def kind : Kind → List Word
  | .num => [sign .num]
  | .string => [sign .string]
  | .bool => [sign .bool]
  | .any => [sign .any]
  | .array => [sign .lBracket, sign .rBracket]
  | .map => [sign .lCurly, sign .rCurly]
  | k => [ident k.display]

/-- A type. -/
def type : Ty → List Word
  | .leaf k _ => kind k
  | .of k f e => if (Ty.of k f e).isEmpty then kind k else kind k ++ type e

/-- A name with its type. -/
def typedVar (v : Var) : List Word :=
  ident v.name :: sign .colon :: type v.ty

/-! ### Literals -/

/-- Leaves at most one blank line in a row; `lines` counts the line ends just written. -/
def collapse : (lines : Nat) → List LayoutItem → List LayoutItem
  | _, [] => []
  | lines, .newline :: items =>
    if 2 ≤ lines then collapse (lines + 1) items else .newline :: collapse (lines + 1) items
  | _, .comment text :: items => .comment text :: collapse 1 items
  | _, .element :: items => .element :: collapse 0 items

/-- Whether a line goes on with the items of a literal. -/
def onLine : List LayoutItem → Bool
  | [] | .newline :: _ => false
  | _ => true

/-- Writes the items of a literal, whose lines are indented to `level`, with the given elements. -/
def items (level : Nat) : List LayoutItem → (elems : List (List Word)) → List Word
  | [], _ => []
  | .element :: rest, elems =>
    elems.headD [] ++ (if onLine rest then [space] else []) ++ items level rest elems.tail
  | .newline :: rest, elems =>
    newline :: (if onLine rest then indent level else []) ++ items level rest elems
  | .comment text :: rest, elems =>
    token .comment text :: newline :: (if onLine rest then indent level else [])
      ++ items level rest elems

/-- Writes a literal at a level between its brackets. -/
def literal (level : Nat) (left right : TokenKind) (layout : List LayoutItem)
    (elems : List (List Word)) : List Word :=
  match collapse 0 layout with
  | [] => [sign left, sign right]
  | layout =>
    let lead := match layout with
      | .comment _ :: _ => [space]
      | _ => []
    let back := if layout.getLast? = some .newline then indent level else []
    sign left :: lead ++ items (level + 1) layout elems ++ back ++ [sign right]

/-! ### Expressions -/

/-- The token of an operator with one operand. -/
def unaryOp : UnaryOp → TokenKind
  | .neg => .minus
  | .not => .bang

/-- The token of an operator with two operands. -/
def binaryOp : BinaryOp → TokenKind
  | .or => .or | .and => .and
  | .eq => .eq | .notEq => .notEq | .lt => .lt | .gt => .gt | .ltEq => .ltEq | .gtEq => .gtEq
  | .add => .plus | .sub => .minus | .mul => .asterisk | .div => .slash | .rem => .percent

mutual

/-- An expression on a line of the given level. -/
def expr (level : Nat) : Expr → List Word
  | .var _ name => [ident name]
  | .num _ value => [token .numLit (Number.text value)]
  | .str _ value => [token .stringLit value]
  | .bool _ value => [sign (if value then .true else .false)]
  | .array _ layout elems => literal level .lBracket .rBracket layout (exprs (level + 1) elems)
  | .map _ layout pairs => literal level .lCurly .rCurly layout (keyed (level + 1) pairs)
  | .call _ name args _ => ident name :: arguments level args
  | .unary _ op operand => sign (unaryOp op) :: expr level operand
  | .binary _ op tight left right =>
    let gap := if tight then [] else [space]
    expr level left ++ gap ++ sign (binaryOp op) :: gap ++ expr level right
  | .index _ left key => expr level left ++ sign .lBracket :: expr level key ++ [sign .rBracket]
  | .slice _ left start stop =>
    expr level left ++ sign .lBracket :: exprOption level start ++ sign .colon
      :: exprOption level stop ++ [sign .rBracket]
  | .dot _ left key => expr level left ++ [sign .dot, ident key]
  | .group _ inner => sign .lParen :: expr level inner ++ [sign .rParen]
  | .assert m left => expr level left ++ sign .dot :: sign .lParen :: type m.ty ++ [sign .rParen]
  | .any _ inner => expr level inner

def exprs (level : Nat) : List Expr → List (List Word)
  | [] => []
  | e :: es => expr level e :: exprs level es

def keyed (level : Nat) : List (String × Expr) → List (List Word)
  | [] => []
  | (k, e) :: ps => (ident k :: sign .colon :: expr level e) :: keyed level ps

/-- Arguments, each after a blank. -/
def arguments (level : Nat) : List Expr → List Word
  | [] => []
  | e :: es => space :: expr level e ++ arguments level es

def exprOption (level : Nat) : Option Expr → List Word
  | none => []
  | some e => expr level e

end

/-- A range with the arguments that were given, each after a blank. -/
def range (level : Nat) : Range → List Word
  | .step start stop stride => arguments level (start.toList ++ stop :: stride.toList)
  | .over e => arguments level [e]

/-! ### Statements -/

/-- A line that holds nothing. -/
def isBlank : Stmt → Bool
  | .empty _ none => true
  | _ => false

/-- A line that holds only a comment. -/
def isComment : Stmt → Bool
  | .empty _ (some _) => true
  | _ => false

/-- Puts lines below each other, of blank ones in a row only the first. A line comes with whether
it is blank; `afterBlank` says whether a blank one comes before. -/
def lines : (afterBlank : Bool) → List (Bool × List Word) → List Word
  | _, [] => []
  | afterBlank, (empty, words) :: rest =>
    if empty then
      if afterBlank then lines true rest else newline :: lines true rest
    else words ++ newline :: lines false rest

/-- The parameters of a function or handler, each after a blank. -/
def params (vs : List Var) : List Word :=
  vs.flatMap fun v => space :: typedVar v

/-- The line that a function starts with. -/
def funcHead (sig : Signature) : List Word :=
  let result := if sig.result.same .none then [] else sign .colon :: type sig.result
  let rest := match sig.variadic with
    | some v => space :: typedVar v ++ [sign .dot3]
    | none => []
  sign .func :: space :: ident sig.name :: result ++ params sig.params ++ rest

/-- What a loop runs through its range with. -/
def loopVar : Option Var → List Word
  | some v => [ident v.name, space, sign .declare, space]
  | none => []

mutual

/-- A statement at a level, without its indentation and the end of its line. -/
def stmt (level : Nat) : Stmt → List Word
  | .empty _ none => []
  | .empty _ (some comment) => [token .comment (Text.trim comment)]
  | .typedDecl _ comment v _ => typedVar v ++ trailing comment
  | .inferredDecl _ comment v value =>
    ident v.name :: space :: sign .declare :: space :: expr level value ++ trailing comment
  | .assign _ comment target value =>
    expr level target ++ space :: sign .assign :: space :: expr level value ++ trailing comment
  | .call _ comment name args _ => ident name :: arguments level args ++ trailing comment
  | .ret _ comment none => sign .return :: trailing comment
  | .ret _ comment (some value) =>
    sign .return :: space :: expr level value ++ trailing comment
  | .brk _ comment => sign .break :: trailing comment
  | .cond _ comment first more otherwise =>
    sign .if :: space :: branch level first ++ moreBranches level more ++ lastBranch level otherwise
      ++ indent level ++ sign .end :: trailing comment
  | .loop _ (.mk _ comment condition body) =>
    sign .while :: space :: expr level condition ++ trailing comment ++ newline :: block level body
  | .each _ comment v r body =>
    sign .for :: space :: loopVar v ++ sign .range :: range level r ++ trailing comment
      ++ newline :: block level body
  | .func _ comment sig body => funcHead sig ++ trailing comment ++ newline :: block level body
  | .on _ comment name vs body =>
    sign .on :: space :: ident name :: params vs ++ trailing comment ++ newline :: block level body

/-- The condition and the statements of a branch at a level. -/
def branch (level : Nat) : Branch → List Word
  | .mk _ comment condition (.mk _ _ ss) =>
    expr level condition ++ trailing comment ++ newline :: lines false (stmts (level + 1) ss)

def moreBranches (level : Nat) : List Branch → List Word
  | [] => []
  | b :: bs =>
    indent level ++ sign .else :: space :: sign .if :: space :: branch level b ++ moreBranches level bs

def lastBranch (level : Nat) : Option Block → List Word
  | none => []
  | some (.mk _ comment ss) =>
    indent level ++ sign .else :: trailing comment ++ newline
      :: lines false (stmts (level + 1) ss)

/-- The statements of a block at a level, and its end. -/
def block (level : Nat) : Block → List Word
  | .mk _ comment ss =>
    lines false (stmts (level + 1) ss) ++ indent level ++ sign .end :: trailing comment

/-- Statements at a level as lines. -/
def stmts (level : Nat) : List Stmt → List (Bool × List Word)
  | [] => []
  | s :: ss => (isBlank s, indent level ++ stmt level s) :: stmts level ss

end

/-! ### Programs -/

/-- Whether a statement stands apart from those around it. -/
def standsApart : Stmt → Bool
  | .func .. | .on .. => true
  | _ => false

/-- Whether comment lines lead up to a statement that stands apart. -/
def leadsApart : List Stmt → Bool
  | [] => false
  | s :: ss => standsApart s || (isComment s && leadsApart ss)

/-- Whether a blank line is added after `s`, which `rest` follows: after a function or handler
unless a blank line or nothing follows, and before one with the comments right above it. -/
def gapAfter (s : Stmt) (rest : List Stmt) : Bool :=
  (standsApart s && (rest.head?.map isBlank) = some false)
    || (!isBlank s && !isComment s && leadsApart rest)

/-- The statements of a program as lines, with the gaps between them. -/
def topLines : List Stmt → List (Bool × List Word)
  | [] => []
  | s :: ss => (isBlank s, stmt 0 s ++ (if gapAfter s ss then [newline] else [])) :: topLines ss

/-- All words of a program. -/
def program (p : Program) : List Word :=
  if p.stmts.isEmpty then [newline] else lines false (topLines p.stmts)

end Layout

/-- The program in its canonical layout. -/
def Program.format (p : Program) : String :=
  Word.join (Layout.program p)

end TinyScript
