import TinyScript.Text.Quoted

/-! # Tokens

The words of a program: their kinds, their places in the source and the forms in which they are
shown. -/

namespace TinyScript

/-- A place in the source. Lines and columns count from 1, offsets from 0, in characters. -/
structure Position where
  offset : Nat
  line : Nat
  col : Nat
  deriving DecidableEq, Repr, Inhabited

namespace Position

/-- The first place of a source. -/
def start : Position := ⟨0, 1, 1⟩

/-- The place after a character. -/
def after (p : Position) (c : Char) : Position :=
  if c = '\n' then ⟨p.offset + 1, p.line + 1, 1⟩ else ⟨p.offset + 1, p.line, p.col + 1⟩

/-- How messages refer to a place. -/
def location (p : Position) : String :=
  s!"line {p.line} column {p.col}"

end Position

/-- The kinds of tokens. -/
inductive TokenKind where
  | illegal | eof | comment
  | ident | numLit | stringLit
  | declare | assign
  | plus | minus | bang | asterisk | slash | percent
  | eq | notEq | lt | gt | ltEq | gtEq
  | lParen | rParen | lBracket | rBracket | lCurly | rCurly
  | colon | ws | nl | dot | dot3
  | num | string | bool | any
  | true | false | and | or
  | if | else | func | return | on | for | range | while | break | end
  deriving DecidableEq, Repr, Inhabited

namespace TokenKind

/-- The kind of a keyword. -/
def ofKeyword? (word : String) : Option TokenKind :=
  match word with
  | "true" => some .true
  | "false" => some .false
  | "and" => some .and
  | "or" => some .or
  | "num" => some .num
  | "string" => some .string
  | "bool" => some .bool
  | "any" => some .any
  | "if" => some .if
  | "else" => some .else
  | "func" => some .func
  | "on" => some .on
  | "return" => some .return
  | "for" => some .for
  | "range" => some .range
  | "while" => some .while
  | "break" => some .break
  | "end" => some .end
  | _ => none

/-- The name of a kind in token listings. -/
def name : TokenKind → String
  | .illegal => "ILLEGAL" | .eof => "EOF" | .comment => "COMMENT"
  | .ident => "IDENT" | .numLit => "NUM_LIT" | .stringLit => "STRING_LIT"
  | .declare => "DECLARE" | .assign => "ASSIGN"
  | .plus => "PLUS" | .minus => "MINUS" | .bang => "BANG"
  | .asterisk => "ASTERISK" | .slash => "SLASH" | .percent => "PERCENT"
  | .eq => "EQ" | .notEq => "NOT_EQ" | .lt => "LT" | .gt => "GT" | .ltEq => "LTEQ" | .gtEq => "GTEQ"
  | .lParen => "LPAREN" | .rParen => "RPAREN" | .lBracket => "LBRACKET" | .rBracket => "RBRACKET"
  | .lCurly => "LCURLY" | .rCurly => "RCURLY"
  | .colon => "COLON" | .ws => "WS" | .nl => "NL" | .dot => "DOT" | .dot3 => "DOT3"
  | .num => "NUM" | .string => "STRING" | .bool => "BOOL" | .any => "ANY"
  | .true => "TRUE" | .false => "FALSE" | .and => "AND" | .or => "OR"
  | .if => "IF" | .else => "ELSE" | .func => "FUNC" | .return => "RETURN" | .on => "ON"
  | .for => "FOR" | .range => "RANGE" | .while => "WHILE" | .break => "BREAK" | .end => "END"

/-- The text of tokens that are always written the same way. Tokens with a text of their own and
the end of input have none. -/
def surface : TokenKind → String
  | .illegal => "💣"
  | .eof | .comment | .ident | .numLit | .stringLit => ""
  | .declare => ":=" | .assign => "="
  | .plus => "+" | .minus => "-" | .bang => "!" | .asterisk => "*" | .slash => "/" | .percent => "%"
  | .eq => "==" | .notEq => "!=" | .lt => "<" | .gt => ">" | .ltEq => "<=" | .gtEq => ">="
  | .lParen => "(" | .rParen => ")" | .lBracket => "[" | .rBracket => "]"
  | .lCurly => "\x7b" | .rCurly => "\x7d"
  | .colon => ":" | .ws => " " | .nl => "\n" | .dot => "." | .dot3 => "..."
  | .num => "num" | .string => "string" | .bool => "bool" | .any => "any"
  | .true => "true" | .false => "false" | .and => "and" | .or => "or"
  | .if => "if" | .else => "else" | .func => "func" | .return => "return" | .on => "on"
  | .for => "for" | .range => "range" | .while => "while" | .break => "break" | .end => "end"

/-- How messages refer to a kind. -/
def describe (k : TokenKind) : String :=
  match k with
  | .eof => "end of input"
  | .nl => "end of line"
  | .ident => "identifier"
  | k => Text.quote k.surface

end TokenKind

/-- A token with its literal, which is empty for tokens that are always written the same way. -/
structure Token where
  kind : TokenKind
  literal : String
  pos : Position
  deriving DecidableEq, Repr, Inhabited

namespace Token

/-- A token that stands nowhere in the source. -/
def synthetic (kind : TokenKind) (literal : String) : Token :=
  ⟨kind, literal, ⟨0, 0, 0⟩⟩

/-- The number of characters that a message underlines. -/
def width (t : Token) : Nat :=
  match t.kind with
  | .ident | .numLit | .comment | .ws => t.literal.length
  | .stringLit => (Text.quote t.literal).length
  | k => k.surface.length

/-- The offset right after the token. -/
def stop (t : Token) : Nat :=
  t.pos.offset + t.width

/-- The token as it is written in a program. -/
def format (t : Token) : String :=
  match t.kind with
  | .comment | .ident | .numLit => t.literal
  | .stringLit => Text.quote t.literal
  | k => k.surface

/-- How messages refer to the token. -/
def describe (t : Token) : String :=
  match t.kind with
  | .comment | .ident | .numLit => t.literal
  | .stringLit => "\"" ++ t.literal ++ "\""
  | k => k.describe

/-- The token in token listings. -/
def display (t : Token) : String :=
  match t.kind with
  | .comment | .ident | .numLit | .stringLit => t.kind.name ++ " " ++ Text.quote t.literal
  | .illegal => "ILLEGAL 💥 " ++ Text.quote t.literal ++ " at " ++ t.pos.location
  | k => k.name

end Token

end TinyScript
