import TinyScript.Parsing.Statement
import TinyScript.Token.Lexer

/-! # Reading programs

Functions and event handlers stand at the top of a program. The signatures of all functions are
read before anything else, so that calls can be checked before the declaration is reached. -/

namespace TinyScript.Parsing

/-! ### Functions -/

/-- Reads parameters up to the end of the line or three dots, after those in `done`. -/
def paramsWithin : (fuel : Nat) → (done : Array Var) → Parse (List Var)
  | 0, done => return done.toList
  | fuel + 1, done => do
    if (← atLineEnd) || (← kind) = .dot3 then return done.toList
    let _ ← expect .ident
    let (v, _) ← typedVar
    paramsWithin fuel (done.push v)

/-- Reads a signature from the keyword on. -/
def signature : Attempt (Token × Signature) := do
  let token ← cur
  advance
  orNextLine (require .ident)
  let name := (← cur).literal
  advance
  let mut result := Ty.none
  if (← kind) = .colon then
    advance
    result ← type
    if result.kind = .illegal then
      reportAt token (.badResultType (← cur))
  let params ← paramsWithin (← get).fuel #[]
  let mut fixedParams := params
  let mut variadic := none
  if (← kind) = .dot3 then
    advance
    match params with
    | [v] =>
      fixedParams := []
      variadic := some v
    | _ => report .badVariadic
  expectLineEnd
  nextLine
  return (token, ⟨name, fixedParams, variadic, result⟩)

/-- Reports a function whose name is taken, and makes its signature known. The latest signature of
a name counts. -/
def addSignature (token : Token) (sig : Signature) : Parse Unit := do
  let s ← get
  if s.prelude.isGlobal sig.name then
    reportAt token (.overridesGlobal sig.name)
  if (s.prelude.func? sig.name).isSome then
    reportAt token (.overridesFunction sig.name)
  else if s.isFunc sig.name then
    reportAt token (.functionRedeclared sig.name)
  modify fun s => { s with funcs := sig :: s.funcs }

/-- Reads the signature at a token. -/
def signatureAt (pos : Nat) : Parse Unit := do
  modify fun s => { s with pos }
  match ← signature.run with
  | some (token, sig) => addSignature token sig
  | none => return

/-- Declares a parameter in the scope of a body. -/
def declareParam (v : Var) (ty : Ty) : Parse Unit := do
  let _ ← checkDecl v true
  declareVar { v with ty }

/-- Declares the parameters of a function in the scope of its body. -/
def declareParams (sig : Signature) : Parse Unit := do
  sig.params.forM fun v => declareParam v v.ty
  sig.variadic.forM fun v => declareParam v (.array v.ty)

/-- Reads a function whose signature has been read. A second function of a name is dropped. -/
def function : Attempt Stmt := do
  let token ← cur
  advance
  let nameToken ← cur
  modify State.toLineEnd
  -- a comment is the last token before the end of the line
  let s ← get
  let comment := match s.prev? with
    | some t => if t.kind = .comment then some t.literal else none
    | none => none
  nextLine
  let signature := s.func? nameToken.literal
  let result := (signature.map (·.result)).getD .none
  enterScopeWith .func (some result)
  signature.forM fun sig => declareParams sig
  let body ← block [.end, .eof]
  leaveScope
  if !result.same .none && !body.terminates then
    report .missingReturn
  let endComment ← OptionT.lift blockEnd
  let some sig := signature | failure
  if nameToken.kind ≠ .ident then failure
  if (← get).declared.any (·.signature.name == sig.name) then failure
  let body := body.withComment endComment
  modify fun s => { s with declared := s.declared.push ⟨sig, body⟩ }
  return .func token comment sig body

/-! ### Event handlers -/

/-- Reports the parameters that differ from those of the event. -/
def declareEventParams : List Var → List Var → Parse Unit
  | [], _ => return
  | v :: vs, expected => do
    let _ ← checkDecl v true
    expected.head?.forM fun e => do
      unless v.ty.fits e.ty do
        report (.parameterType v.name e.ty v.ty)
    declareVar v
    declareEventParams vs expected.tail

/-- Declares the parameters of a handler in the scope of its body. A handler may leave out all of
them. -/
def checkEventParams (name : String) (params : List Var) : Parse Unit := do
  if params.isEmpty then return
  match (← get).prelude.event? name with
  | none => return
  | some event =>
    if params.length ≠ event.params.length then
      report (.parameterCount event.params.length params.length)
    declareEventParams params event.params

/-- Reads parameters up to the end of the line, after those in `done`. -/
def eventParamsWithin : (fuel : Nat) → (done : Array Var) → Parse (List Var)
  | 0, done => return done.toList
  | fuel + 1, done => do
    if ← atLineEnd then return done.toList
    let _ ← expect .ident
    let (v, _) ← typedVar
    eventParamsWithin fuel (done.push v)

/-- What is wrong with a handler for an event. -/
def State.handlerProblem? (s : State) (name : String) : Option Problem :=
  if s.handlers.any (·.name == name) then some (.handlerRedeclared name)
  else if (s.prelude.event? name).isNone then some (.unknownEvent name)
  else none

/-- Reads an event handler. -/
def handler : Attempt Stmt := do
  let token ← cur
  advance
  orNextLine (require .ident)
  let name := (← cur).literal
  let problem := (← get).handlerProblem? name
  problem.forM fun p => report p
  advance
  let params ← eventParamsWithin (← get).fuel #[]
  let comment ← OptionT.lift comment?
  nextLine
  enterScopeWith .handler (some .none)
  checkEventParams name params
  let body ← block [.end, .eof]
  leaveScope
  let endComment ← OptionT.lift blockEnd
  let body := body.withComment endComment
  if problem.isNone then
    modify fun s => { s with handlers := s.handlers.push ⟨name, params, body⟩ }
  return .on token comment name params body

/-! ### Programs -/

/-- Reads the statements of a program, after those in `done`, and drops those that are never
reached. -/
def programWithin : (fuel : Nat) → (done : Array Stmt) → (terminated : Bool) → Parse (List Stmt)
  | 0, done, _ => return done.toList
  | fuel + 1, done, terminated => do
    let token ← cur
    match token.kind with
    | .eof => return done.toList
    | .func =>
      let stmt ← function.run
      programWithin fuel (done ++ stmt.toArray) terminated
    | .on =>
      let stmt ← handler.run
      programWithin fuel (done ++ stmt.toArray) terminated
    | _ =>
      match ← (statement block).run with
      | none => programWithin fuel done terminated
      | some stmt =>
        if terminated && !stmt.isEmpty then
          reportAt token .unreachable
          programWithin fuel done terminated
        else
          programWithin fuel (done.push stmt) (terminated || stmt.terminates)

/-- The problem that an illegal token stands for. -/
def illegalProblem (literal : String) : Problem :=
  if literal = Lexeme.unclosed then .unclosedString
  else if literal = Lexeme.malformed then .malformedString
  else .illegalCharacter literal

/-- A parser at the start of a source. Illegal tokens are reported and left out. -/
def State.start (source : String) (prelude : Prelude) : State :=
  let all := Token.scan source
  let tokens := all.filter (·.kind != .illegal)
  { tokens
    eof := tokens.back?.getD ⟨.eof, "", .start⟩
    problems := (all.filter (·.kind == .illegal)).map fun t => ⟨illegalProblem t.literal, t⟩
    prelude
    funcs := prelude.funcs }

/-- The indices of the tokens that start a function. -/
def State.funcPositions (s : State) : List Nat :=
  (List.range s.tokens.size).filter fun i => (s.tokenAt i).kind == .func

/-- Reads a whole program. -/
def program : Parse Program := do
  (← get).funcPositions.forM signatureAt
  enterScopeWith .program none
  modify fun s =>
    { s with scopes := s.prelude.globals.foldl (fun ss v => ss.declare v true) s.scopes, pos := 0 }
  let stmts ← programWithin (← get).fuel #[] false
  leaveScope
  let s ← get
  return ⟨stmts, s.declared.toList, s.handlers.toList⟩

end TinyScript.Parsing

namespace TinyScript.Program

/-- Reads a program as far as possible, with everything that is wrong with it. -/
def analyze (source : String) (prelude : Prelude) : Program × List Diagnostic :=
  let (p, s) := (Parsing.program.run (Parsing.State.start source prelude)).run
  (p, s.problems.toList)

/-- Reads a program that has nothing wrong with it. -/
def parse (source : String) (prelude : Prelude) : Except (List Diagnostic) Program :=
  match analyze source prelude with
  | (p, []) => .ok p
  | (_, problems) => .error problems

end TinyScript.Program
