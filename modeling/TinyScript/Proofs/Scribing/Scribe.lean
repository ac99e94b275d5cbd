import TinyScript.Decimal.Reader
import TinyScript.Expr
import TinyScript.Layout

/-!
# The canonical layout, token by token

A scribe copies a program token by token and decides on the blanks between the tokens as it goes. What
it has to know at a place is little: which brackets are open there, what the line started with, and the
names that are functions or variables. It writes each token with the blank that comes before it, leaves
out what does not belong into the layout, and ends up with the rows of the canonical layout, apart from
blank ones. It does not check the program, so it also copies much that is no program.
-/

namespace TinyScript.Layout
open Word

/-! ### Places -/

/-- A construct that is open. A literal is at the level of its brackets. -/
inductive LineFrame where
  /-- Arguments up to the end of a line or a closing bracket. -/
  | args
  | paren
  | index
  | array (level : Nat)
  | map (level : Nat)
  deriving DecidableEq, Repr

/-- How an operand follows what comes before it. -/
inductive Lead where
  | none
  /-- Without a blank also in the source. -/
  | tight
  | space
  deriving DecidableEq, Repr

/-- Where a type stands. -/
inductive Site where
  | declaration | head | assertion
  deriving DecidableEq, Repr

/-- What was written last in a literal. -/
inductive Item where
  | start | element | comment
  /-- The end of a line, after one with or without anything on it. -/
  | newline (again : Bool)
  deriving DecidableEq, Repr, Inhabited

/-- A place in a line, by what comes next. -/
inductive Place where
  | start
  /-- After the name that starts a line. -/
  | named (name : String)
  /-- An operand; a function may be called without parentheses if it comes first. -/
  | operand (first : Bool) (lead : Lead)
  /-- An operator, or what follows the operand. -/
  | operator
  /-- The first argument of a call. -/
  | argument
  /-- A field or a type assertion. -/
  | dot
  | element (last : Item)
  /-- The end of a line with a comment in a literal. -/
  | elementEnd
  /-- The colon after the key of a map. -/
  | pairColon
  | type (site : Site)
  /-- The closing bracket of the type of a map or an array. -/
  | typeEnd (site : Site) (map : Bool)
  | assertionEnd
  | funcName | handlerName
  | result | params
  /-- The colon after a parameter's name. -/
  | paramColon
  | loopVar | loopDeclare | loopRange
  /-- A further condition, or the end of the line. -/
  | otherwise
  /-- The end of the line, with or without a comment. -/
  | finish
  /-- The end of a line with a comment. -/
  | closed
  /-- What follows the end of a block; the rest of its line is left out. -/
  | ended | rest
  deriving DecidableEq, Repr, Inhabited

/-- What a row means for the blank rows around it. -/
inductive RowKind where
  | blank | comment
  /-- The first and last rows of functions and handlers. -/
  | opener | closer
  /-- The last row of another statement of the program. -/
  | outer
  | inner
  deriving DecidableEq, Repr

/-- What a scribe knows. -/
structure Scribe where
  place : Place := .start
  /-- What is open in the line, innermost first. -/
  frames : List LineFrame := []
  /-- The level of the line's statement. -/
  level : Nat := 0
  /-- Whether the line is in a function or handler. -/
  inBody : Bool := false
  /-- The variables declared so far. -/
  declared : List String := []
  /-- The level of the next line's statement, and whether that is in a function or handler. -/
  nextLevel : Nat := level
  nextInBody : Bool := inBody
  /-- The kind of the row. -/
  kind : RowKind := .blank
  deriving DecidableEq, Repr

/-- What is written for a token, and what the scribe knows then. -/
abbrev Stroke := Option (List Word × Scribe)

namespace Scribe

/-- At the start of a line. -/
def atLine (level : Nat) (inBody : Bool) (declared : List String) : Scribe :=
  { level, inBody, declared }

/-- The level of literals that are opened inside the given frames. -/
def depth (level : Nat) : List LineFrame → Nat
  | [] => level
  | .array l :: _ | .map l :: _ => l + 1
  | _ :: fs => depth level fs

/-- Whether blanks separate expressions directly inside the given frames. -/
def spaced : List LineFrame → Bool
  | .args :: _ | .array _ :: _ | .map _ :: _ => true
  | _ => false

/-- Goes on to a place. -/
def goTo (c : Scribe) (place : Place) : Scribe :=
  { c with place }

/-- Goes on to a place in a new frame. -/
def enter (c : Scribe) (frame : LineFrame) (place : Place) : Scribe :=
  { c with frames := frame :: c.frames, place }

/-- Goes on after an operand in the given frames. -/
def leaveTo (c : Scribe) (frames : List LineFrame) : Scribe :=
  { c with frames, place := .operator }

/-- Declares a variable. -/
def declare (c : Scribe) (name : String) : Scribe :=
  { c with declared := name :: c.declared }

/-- The line after this one. -/
def nextLine (c : Scribe) : Scribe :=
  atLine c.nextLevel c.nextInBody c.declared

section
variable (c : Scribe) (place place' : Place) (frame : LineFrame)

@[simp] theorem goTo_goTo : (c.goTo place).goTo place' = c.goTo place' := rfl
@[simp] theorem goTo_place : (c.goTo place).place = place := rfl
@[simp] theorem enter_place : (c.enter frame place).place = place := rfl

end

end Scribe

/-- The blank of a lead. -/
def Lead.words : Lead → List Word
  | .space => [Word.space]
  | _ => []

/-- The place after a type. -/
def Site.after : Site → Place
  | .declaration => .finish
  | .head => .params
  | .assertion => .assertionEnd

namespace Item

/-- The blank before an element of a literal at a level. -/
def lead (level : Nat) : Item → List Word
  | .start => []
  | .element => [space]
  | .comment | .newline _ => indent (level + 1)

/-- The blank before a comment in a literal at a level. -/
def commentLead (level : Nat) : Item → List Word
  | .start | .element => [space]
  | .comment | .newline _ => indent (level + 1)

/-- The blank before the closing bracket of a literal at a level. -/
def back (level : Nat) : Item → List Word
  | .newline _ => indent level
  | _ => []

/-- What is written last after the end of a line, if that is written. -/
def nextLine? : Item → Option Item
  | .start | .element => some (.newline false)
  | .comment | .newline false => some (.newline true)
  | .newline true => none

end Item

/-! ### Strokes -/

section
variable (fn : String → Bool) (c : Scribe) (kind : TokenKind) (literal : String)

/-- The end of a line, with or without a comment. -/
def finishStroke : Stroke :=
  match kind with
  | .nl | .eof => some ([newline], c.nextLine)
  | .comment => some ([space, token .comment (Text.trim literal)], c.goTo .closed)
  | _ => none

/-- A token that starts an operand, after a gap. -/
def operandStroke (first : Bool) (gap : List Word) : Stroke :=
  match kind with
  | .ident =>
    if first && fn literal then some (gap ++ [ident literal], c.enter .args .argument)
    else if c.declared.contains literal then some (gap ++ [ident literal], c.goTo .operator)
    else none
  | .numLit =>
    (Decimal.readFloat? literal).map fun x =>
      (gap ++ [token .numLit (Number.text x)], c.goTo .operator)
  | .stringLit => some (gap ++ [token .stringLit literal], c.goTo .operator)
  | .true | .false => some (gap ++ [sign kind], c.goTo .operator)
  | .lBracket =>
    some (gap ++ [sign kind], c.enter (.array (Scribe.depth c.level c.frames)) (.element .start))
  | .lCurly =>
    some (gap ++ [sign kind], c.enter (.map (Scribe.depth c.level c.frames)) (.element .start))
  | .lParen => some (gap ++ [sign kind], c.enter .paren (.operand true .none))
  | .bang | .minus => some (gap ++ [sign kind], c.goTo (.operand false .tight))
  | _ => none

/-- A token after the last expression in the given frames. -/
def closingStroke : List LineFrame → Stroke
  | .args :: fs => closingStroke fs
  | .paren :: fs => if kind = .rParen then some ([sign kind], c.leaveTo fs) else none
  | .index :: fs =>
    if kind = .rBracket then some ([sign kind], c.leaveTo fs)
    else if kind = .colon then
      some ([sign kind], { c with frames := .index :: fs, place := .operand true .none })
    else none
  | [] =>
    if kind = .assign then
      some ([space, sign kind], { c with frames := [], place := .operand true .space })
    else finishStroke { c with frames := [] } kind literal
  | _ => none

/-- A token between the elements of a literal. -/
def elementStroke (last : Item) : Stroke :=
  match c.frames with
  | .array level :: fs =>
    match kind with
    | .nl =>
      match last.nextLine? with
      | some next => some ([newline], c.goTo (.element next))
      | none => some ([], c.goTo (.element last))
    | .comment =>
      some (last.commentLead level ++ [token .comment (Text.trim literal)], c.goTo .elementEnd)
    | .rBracket => some (last.back level ++ [sign kind], c.leaveTo fs)
    | _ => operandStroke fn c kind literal false (last.lead level)
  | .map level :: fs =>
    match kind with
    | .nl =>
      match last.nextLine? with
      | some next => some ([newline], c.goTo (.element next))
      | none => some ([], c.goTo (.element last))
    | .comment =>
      some (last.commentLead level ++ [token .comment (Text.trim literal)], c.goTo .elementEnd)
    | .rCurly => some (last.back level ++ [sign kind], c.leaveTo fs)
    | .ident => some (last.lead level ++ [ident literal], c.goTo .pairColon)
    | _ => none
  | _ => none

/-- A token after an expression among others that blanks separate. -/
def betweenStroke : Stroke :=
  match c.frames with
  | .args :: _ =>
    match operandStroke fn c kind literal false [space] with
    | some r => some r
    | none => closingStroke c kind literal c.frames
  | _ => elementStroke fn c kind literal .element

/-- A token after an operand. -/
def operatorStroke (blank : Bool) : Stroke :=
  let gap := if Scribe.spaced c.frames then [] else [space]
  let lead := if Scribe.spaced c.frames then .tight else .space
  if Scribe.spaced c.frames && blank then betweenStroke fn c kind literal
  else if (BinaryOp.ofToken? kind).isSome then
    some (gap ++ [sign kind], c.goTo (.operand false lead))
  else if kind = .lBracket && !blank then some ([sign kind], c.enter .index (.operand true .none))
  else if kind = .dot && !blank then some ([sign kind], c.goTo .dot)
  else if Scribe.spaced c.frames then betweenStroke fn c kind literal
  else closingStroke c kind literal c.frames

/-- The token that starts a line. -/
def startStroke : Stroke :=
  let gap := indent c.level
  let c := { c with kind := if c.level = 0 then .outer else .inner }
  let opens := { c with nextLevel := c.level + 1, kind := .inner }
  match kind with
  | .nl => some ([newline], Scribe.atLine c.level c.inBody c.declared)
  | .comment =>
    some (gap ++ [token .comment (Text.trim literal)], { c with kind := .comment, place := .closed })
  | .ident => some (gap ++ [ident literal], c.goTo (.named literal))
  | .return => some (gap ++ [sign kind], c.goTo (.operand true .space))
  | .break => some (gap ++ [sign kind], c.goTo .finish)
  | .if | .while => some (gap ++ [sign kind], opens.goTo (.operand true .space))
  | .for => some (gap ++ [sign kind], opens.goTo .loopVar)
  | .else =>
    some (indent (c.level - 1) ++ [sign kind], { c with level := c.level - 1, kind := .inner, place := .otherwise })
  | .end =>
    some (indent (c.level - 1) ++ [sign kind],
      { c with
        place := .ended
        nextLevel := c.level - 1
        nextInBody := c.inBody && c.level != 1
        kind := if c.level ≠ 1 then .inner else if c.inBody then .closer else .outer })
  | .func =>
    some (gap ++ [sign kind], { opens with place := .funcName, nextInBody := true, kind := .opener })
  | .on =>
    some (gap ++ [sign kind], { opens with place := .handlerName, nextInBody := true, kind := .opener })
  | _ => none

/-- The token after a name that starts a line. -/
def namedStroke (name : String) (blank : Bool) : Stroke :=
  match kind with
  | .assign =>
    if c.declared.contains name then some ([space, sign kind], c.goTo (.operand true .space)) else none
  | .dot =>
    if c.declared.contains name && !blank then some ([sign kind], c.goTo .dot) else none
  | .colon => some ([sign kind], (c.declare name).goTo (.type .declaration))
  | .declare => some ([space, sign kind], (c.declare name).goTo (.operand true .space))
  | _ =>
    if fn name then betweenStroke fn { c with frames := [.args] } kind literal
    else if kind = .lBracket && c.declared.contains name && !blank then
      some ([sign kind], c.enter .index (.operand true .none))
    else none

/-- A token of a function's or handler's parameters. -/
def paramsStroke : Stroke :=
  match kind with
  | .ident => some ([space, ident literal], (c.declare literal).goTo .paramColon)
  | .dot3 => some ([sign kind], c.goTo .finish)
  | _ => finishStroke c kind literal

/-- The token after `for`, or after the variable of the loop. -/
def rangeStroke : Stroke :=
  if kind = .range then some ([space, sign kind], c.enter .args .argument) else none

/-- What comes after the end of a block. -/
def endedStroke : Stroke :=
  match kind with
  | .nl | .eof | .comment => finishStroke c kind literal
  | _ => some ([], c.goTo .rest)

/-- What a scribe writes for a token, which comes after a blank or not. -/
def stroke (blank : Bool) : Stroke :=
  match c.place with
  | .start => startStroke c kind literal
  | .named name => namedStroke fn c kind literal name blank
  | .operand first lead =>
    if lead = .tight && blank then none
    else
      match operandStroke fn c kind literal first lead.words with
      | some r => some r
      | none => closingStroke c kind literal c.frames
  | .operator => operatorStroke fn c kind literal blank
  | .argument => betweenStroke fn c kind literal
  | .dot =>
    match kind with
    | .ident => some ([ident literal], c.goTo .operator)
    | .lParen => some ([sign kind], c.goTo (.type .assertion))
    | _ => none
  | .element last => elementStroke fn c kind literal last
  | .elementEnd => if kind = .nl then some ([newline], c.goTo (.element .comment)) else none
  | .pairColon => if kind = .colon then some ([sign kind], c.goTo (.operand false .none)) else none
  | .type site =>
    match kind with
    | .num | .string | .bool | .any => some ([sign kind], c.goTo site.after)
    | .lBracket => some ([sign kind], c.goTo (.typeEnd site false))
    | .lCurly => some ([sign kind], c.goTo (.typeEnd site true))
    | _ => none
  | .typeEnd site map =>
    if kind = (if map then .rCurly else .rBracket) then some ([sign kind], c.goTo (.type site)) else none
  | .assertionEnd => if kind = .rParen then some ([sign kind], c.goTo .operator) else none
  | .funcName =>
    if kind = .ident && fn literal then some ([space, ident literal], c.goTo .result) else none
  | .handlerName => if kind = .ident then some ([space, ident literal], c.goTo .params) else none
  | .result =>
    if kind = .colon then some ([sign kind], c.goTo (.type .head))
    else paramsStroke c kind literal
  | .params => paramsStroke c kind literal
  | .paramColon => some ([sign .colon], c.goTo (.type .head))
  | .loopVar =>
    if kind = .ident then some ([space, ident literal], (c.declare literal).goTo .loopDeclare)
    else rangeStroke c kind
  | .loopDeclare =>
    if kind = .declare then some ([space, sign kind], c.goTo .loopRange) else none
  | .loopRange => rangeStroke c kind
  | .otherwise =>
    if kind = .if then some ([space, sign kind], c.goTo (.operand true .space))
    else finishStroke c kind literal
  | .finish => finishStroke c kind literal
  | .closed => if kind = .nl ∨ kind = .eof then some ([newline], c.nextLine) else none
  | .ended => endedStroke c kind literal
  | .rest => if kind = .nl ∨ kind = .eof then some ([newline], c.nextLine) else some ([], c)

end

/-! ### Rows -/

/-- A line with its indentation and its end. It goes on over more lines if it holds a literal that
does. -/
structure Row where
  words : List Word
  kind : RowKind
  deriving DecidableEq, Repr

/-- A row that holds nothing. -/
def blankRow : Row := ⟨[newline], .blank⟩

/-- What a scribe has written. -/
structure Page where
  rows : List Row := []
  /-- The row under way. -/
  line : List Word := []
  scribe : Scribe := {}
  deriving DecidableEq, Repr

namespace Page

/-- Writes what a stroke gives. -/
def write (p : Page) (words : List Word) (scribe : Scribe) : Page :=
  if scribe.place = .start then
    { rows := p.rows ++ [⟨p.line ++ words, p.scribe.kind⟩], scribe }
  else { rows := p.rows, line := p.line ++ words, scribe }

end Page

/-! ### Blank rows -/

/-- Whether comments lead up to a function or handler. -/
def leadsToOpener : List Row → Bool
  | [] => false
  | r :: rs => r.kind == .opener || (r.kind == .comment && leadsToOpener rs)

/-- Whether a blank row is added after `r`, which `rest` follows. -/
def rowGap (r : Row) (rest : List Row) : Bool :=
  (r.kind == .closer && (rest.head?.map (·.kind == .blank)) = some false)
    || (r.kind == .outer && leadsToOpener rest)

/-- Leaves only the first of blank rows in a row, and adds those around functions and handlers. -/
def tidy : (afterBlank : Bool) → List Row → List Row
  | _, [] => []
  | afterBlank, r :: rest =>
    if r.kind = .blank then
      if afterBlank then tidy true rest else r :: tidy true rest
    else r :: ((if rowGap r rest then [blankRow] else []) ++ tidy false rest)

/-- The words of rows. -/
def rowWords (rows : List Row) : List Word :=
  rows.flatMap (·.words)

/-- The words of a program with the given rows. -/
def programWords (rows : List Row) : List Word :=
  if rows.isEmpty then [newline] else rowWords (tidy false rows)

end TinyScript.Layout
