import TinyScript.Diagnostic.Message
import TinyScript.Parsing.Scopes
import TinyScript.Stmt

/-! # The parser's state

A parser walks through an array of tokens and never fails: it reports problems and goes on. An
attempt is a parser that may end without a result, after which its caller recovers. Blanks between
tokens are skipped, except inside constructs whose parts they separate. -/

namespace TinyScript.Parsing

/-- The state of a parser. -/
structure State where
  /-- All tokens of the source but the illegal ones; the last is the end of input. -/
  tokens : Array Token
  /-- The end of input, which is also read beyond the last token. -/
  eof : Token
  /-- The index of the current token. -/
  pos : Nat := 0
  problems : Array Diagnostic := #[]
  prelude : Prelude
  /-- All known functions, the latest first. -/
  funcs : List Signature
  /-- The functions declared so far. -/
  declared : Array Function := #[]
  /-- The handlers of known events declared so far. -/
  handlers : Array Handler := #[]
  scopes : Scopes := []
  /-- Whether blanks separate expressions, for each open construct, innermost first. -/
  spacing : List Bool := [false]
  deriving Inhabited

namespace State

/-- The token at an index. -/
def tokenAt (s : State) (i : Nat) : Token :=
  (s.tokens[i]?).getD s.eof

/-- The current token. -/
def cur (s : State) : Token :=
  s.tokenAt s.pos

/-- Whether blanks separate expressions here. -/
def isSpaced (s : State) : Bool :=
  s.spacing.headD false

/-- The token after the current one, and after a blank unless blanks separate expressions. -/
def peek (s : State) : Token :=
  let next := s.tokenAt (s.pos + 1)
  if next.kind = .ws && !s.isSpaced then s.tokenAt (s.pos + 2) else next

/-- The token before the current one, blanks included. -/
def prev? (s : State) : Option Token :=
  if s.pos = 0 then none else some (s.tokenAt (s.pos - 1))

/-- Goes on by one token. -/
def advanceOne (s : State) : State :=
  if s.pos < s.tokens.size then { s with pos := s.pos + 1 } else s

/-- Goes past a blank. -/
def skipBlank (s : State) : State :=
  if s.cur.kind = .ws then s.advanceOne else s

/-- Goes on to the next token, past a blank unless blanks separate expressions. -/
def advance (s : State) : State :=
  let s := s.advanceOne
  if s.isSpaced then s else s.skipBlank

/-- The first index from `i` on, and at most `fuel` further, where a line ends. -/
def lineEndFrom (s : State) : (fuel i : Nat) → Nat
  | 0, i => i
  | fuel + 1, i =>
    match (s.tokenAt i).kind with
    | .nl | .eof => i
    | _ => s.lineEndFrom fuel (i + 1)

/-- Goes to the end of the line. -/
def toLineEnd (s : State) : State :=
  { s with pos := s.lineEndFrom (s.tokens.size - s.pos) s.pos }

/-- Goes to the start of the next line. -/
def nextLine (s : State) : State :=
  let s := s.toLineEnd
  if s.cur.kind = .nl then s.advance else s

/-- Whether the line holds nothing more but a comment. -/
def atLineEnd (s : State) : Bool :=
  match s.cur.kind with
  | .nl | .eof | .comment => true
  | _ => false

/-- The comment at this place. -/
def comment? (s : State) : Option String :=
  if s.cur.kind = .comment then some s.cur.literal else none

/-- Adds a problem at a token. -/
def report (s : State) (token : Token) (problem : Problem) : State :=
  { s with problems := s.problems.push ⟨problem, token⟩ }

/-- Opens a construct in which blanks do or do not separate expressions. -/
def pushSpacing (s : State) (spaced : Bool) : State :=
  { s with spacing := spaced :: s.spacing }

/-- Closes the innermost construct, and goes past a blank that no longer separates. -/
def popSpacing (s : State) : State :=
  let s := { s with spacing := s.spacing.tail }
  if !s.isSpaced && s.cur.kind = .ws then s.advance else s

/-- The signature of a known function. -/
def func? (s : State) (name : String) : Option Signature :=
  s.funcs.find? (·.name == name)

/-- Whether a function has this name. -/
def isFunc (s : State) (name : String) : Bool :=
  (s.func? name).isSome

/-- More loop steps and deeper nesting than the tokens allow: each of them uses up a token. -/
def fuel (s : State) : Nat :=
  s.tokens.size + 1

end State

/-- A parser that always has a result. -/
abbrev Parse := StateM State

/-- A parser that may end without a result. -/
abbrev Attempt := OptionT Parse

/-! ### Steps -/

def cur : Parse Token := return (← get).cur

def kind : Parse TokenKind := return (← get).cur.kind

def advance : Parse Unit := modify State.advance

def advanceOne : Parse Unit := modify State.advanceOne

def skipBlank : Parse Unit := modify State.skipBlank

def nextLine : Parse Unit := modify State.nextLine

def atLineEnd : Parse Bool := return (← get).atLineEnd

def comment? : Parse (Option String) := return (← get).comment?

def isFunc (name : String) : Parse Bool := return (← get).isFunc name

/-- Reports a problem at a token. -/
def reportAt (token : Token) (problem : Problem) : Parse Unit :=
  modify (·.report token problem)

/-- Reports a problem at the current token. -/
def report (problem : Problem) : Parse Unit :=
  modify fun s => s.report s.cur problem

/-- Whether the current token is of a kind; reports it if not. -/
def expect (expected : TokenKind) : Parse Bool := do
  let found ← kind
  if found = expected then return true
  report (.expectedToken expected found)
  return false

/-- Reports anything but a comment before the end of the line. -/
def expectLineEnd : Parse Unit := do
  unless ← atLineEnd do
    report (.expectedLineEnd (← cur))

/-- Runs an attempt in which blanks do or do not separate expressions. -/
def withSpacing {α : Type} (spaced : Bool) (p : Attempt α) : Attempt α := OptionT.mk do
  modify (·.pushSpacing spaced)
  let result ← p.run
  modify State.popSpacing
  return result

/-- Reports a problem and ends the attempt. -/
def failAt {α : Type} (token : Token) (problem : Problem) : Attempt α := do
  reportAt token problem
  failure

/-- Reports a problem at the current token and ends the attempt. -/
def fail {α : Type} (problem : Problem) : Attempt α := do
  report problem
  failure

/-- Ends the attempt unless the current token is of a kind. -/
def require (expected : TokenKind) : Attempt Unit := do
  unless ← expect expected do
    failure

/-- An attempt that goes to the next line if it has no result. -/
def orNextLine {α : Type} (p : Attempt α) : Attempt α := OptionT.mk do
  let result ← p.run
  if result.isNone then nextLine
  return result

/-! ### Scopes -/

/-- Opens a scope that has the result type of the one around it. -/
def enterScope (kind : ScopeKind) : Parse Unit :=
  modify fun s => { s with scopes := s.scopes.enter kind }

/-- Opens a scope with a result type of its own. -/
def enterScopeWith (kind : ScopeKind) (result : Option Ty) : Parse Unit :=
  modify fun s => { s with scopes := s.scopes.enterWith kind result }

/-- Closes the innermost scope without a report. -/
def dropScope : Parse Unit :=
  modify fun s => { s with scopes := s.scopes.tail }

/-- Closes the innermost scope and reports the variables in it that were never read. -/
def leaveScope : Parse Unit := do
  let unused := (← get).scopes.unused
  dropScope
  unused.forM fun v => reportAt v.token (.unused v.name)

/-- Looks up a variable and marks it as read. -/
def readVar? (name : String) : Parse (Option Var) := do
  let s ← get
  match s.scopes.read? name with
  | none => return none
  | some (v, scopes) =>
    set { s with scopes }
    return some v

/-- Declares a variable in the innermost scope. -/
def declareVar (v : Var) : Parse Unit :=
  modify fun s => { s with scopes := s.scopes.declare v false }

end TinyScript.Parsing
