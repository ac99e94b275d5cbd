import TinyScript.Text.Ident
import TinyScript.Token

/-! # Cutting a source into tokens

Every source has tokens: what is no token of the language becomes an illegal one. A lexeme is
described by its first character and by how many characters follow it, so that the source is walked
through one character at a time. -/

namespace TinyScript

/-- A token without its place: its kind, its literal, and how many characters it has after the
first. -/
structure Lexeme where
  kind : TokenKind
  literal : String := ""
  extra : Nat := 0
  deriving DecidableEq, Repr

namespace Lexeme

/-- One of two lexemes, depending on whether `second` follows. -/
def either (cs : List Char) (second : Char) (long short : TokenKind) : Lexeme :=
  if cs.head? = some second then ⟨long, "", 1⟩ else ⟨short, "", 0⟩

/-- Walks through a string literal after its opening quote: how many characters come before the
closing quote or the end of the line, and whether it is closed. A quote after an odd number of
backslashes is part of the text. -/
def stringBody : (count : Nat) → (escaped : Bool) → List Char → Nat × Bool
  | count, _, [] => (count, false)
  | count, escaped, c :: cs =>
    if c = '\n' then (count, false)
    else if c = '"' && !escaped then (count, true)
    else if c = '\\' then stringBody (count + 1) (!escaped) cs
    else stringBody (count + 1) false cs

/-- The literal of an illegal token for a string that is not closed. -/
def unclosed : String := "\""

/-- The literal of an illegal token for a string with a malformed escape. -/
def malformed : String := "invalid string"

/-- A string literal after its opening quote. -/
def ofString (cs : List Char) : Lexeme :=
  let (n, closed) := stringBody 0 false cs
  if closed then
    match Text.unquote (cs.take n) with
    | some value => ⟨.stringLit, String.ofList value, n + 1⟩
    | none => ⟨.illegal, malformed, n + 1⟩
  else ⟨.illegal, unclosed, n⟩

/-- A lexeme with the characters after the first that satisfy `p`, in full as its literal. -/
def run (kind : TokenKind) (c : Char) (cs : List Char) (p : Char → Bool) : Lexeme :=
  let tail := cs.takeWhile p
  ⟨kind, String.ofList (c :: tail), tail.length⟩

section
variable [Text.IdentChars]

/-- An identifier or a keyword. -/
def ofWord (c : Char) (cs : List Char) : Lexeme :=
  let word := run .ident c cs Text.isIdentContinue
  match TokenKind.ofKeyword? word.literal with
  | some keyword => ⟨keyword, "", word.extra⟩
  | none => word

/-- Whether blanks that start with a space or a tab go on with `c`. -/
def isSpacing (c : Char) : Bool :=
  c == ' ' || c == '\t' || c == '\r'

/-- The lexeme that starts with `c` and goes on in `cs`. -/
def next (c : Char) (cs : List Char) : Lexeme :=
  match c with
  | ' ' | '\t' => ⟨.ws, "", (cs.takeWhile isSpacing).length⟩
  | '=' => either cs '=' .eq .assign
  | '+' => ⟨.plus, "", 0⟩
  | '-' => ⟨.minus, "", 0⟩
  | '!' => either cs '=' .notEq .bang
  | '/' =>
    if cs.head? = some '/' then run .comment c cs (· != '\n') else ⟨.slash, "", 0⟩
  | '*' => ⟨.asterisk, "", 0⟩
  | '%' => ⟨.percent, "", 0⟩
  | '<' => either cs '=' .ltEq .lt
  | '>' => either cs '=' .gtEq .gt
  | ':' => either cs '=' .declare .colon
  | '\x7b' => ⟨.lCurly, "", 0⟩
  | '\x7d' => ⟨.rCurly, "", 0⟩
  | '(' => ⟨.lParen, "", 0⟩
  | ')' => ⟨.rParen, "", 0⟩
  | '[' => ⟨.lBracket, "", 0⟩
  | ']' => ⟨.rBracket, "", 0⟩
  | '\n' => ⟨.nl, "", 0⟩
  | '.' =>
    match cs with
    | '.' :: '.' :: _ => ⟨.dot3, "", 2⟩
    | _ => ⟨.dot, "", 0⟩
  | '"' => ofString cs
  | c =>
    if Text.isIdentStart c then ofWord c cs
    else if c.isDigit then run .numLit c cs fun d => d.isDigit || d == '.'
    else ⟨.illegal, String.singleton c, 0⟩

end

end Lexeme

namespace Token
variable [Text.IdentChars]

/-- Appends the tokens of the rest of a source, whose first `skip` characters belong to the token
before. The last token is the end of input. -/
def scanFrom (tokens : Array Token) : (skip : Nat) → Position → List Char → Array Token
  | _, pos, [] => tokens.push ⟨.eof, "", pos⟩
  | skip + 1, pos, c :: cs => scanFrom tokens skip (pos.after c) cs
  | 0, pos, c :: cs =>
    let lexeme := Lexeme.next c cs
    scanFrom (tokens.push ⟨lexeme.kind, lexeme.literal, pos⟩) lexeme.extra (pos.after c) cs

/-- The tokens of a source. -/
def scan (source : String) : Array Token :=
  scanFrom #[] 0 .start source.toList

/-- The token listing of a source, one token a line. -/
def listing (source : String) : String :=
  String.join ((scan source).toList.map fun t => t.display ++ "\n")

end Token

end TinyScript
