import TinyScript.Parsing.Expression

/-! # Reading statements

Statements as parsers over `block`, the parser for the blocks nested in them, and blocks by tying
the knot: a nested block starts at a later token, so the number of tokens bounds the nesting. A
statement with a problem is dropped where its meaning is lost, and reading goes on at the next
line. -/

namespace TinyScript.Parsing

/-- A parser for nested blocks that end at one of the given tokens. -/
abbrev Blocks := List TokenKind → Parse Block

/-! ### Declarations -/

/-- The value of a variable declared without one. -/
def zeroValue (ty : Ty) (token : Token) : Expr :=
  match ty.kind with
  | .num => .num ⟨token, .num⟩ 0.0
  | .string => .str ⟨token, .string⟩ ""
  | .bool => .bool ⟨token, .bool⟩ false
  | .any => .any ⟨token, .any⟩ (.bool ⟨token, .bool⟩ false)
  | .array => .array ⟨token, ty⟩ [] []
  | .map => .map ⟨token, ty⟩ [] []
  | .illegal | .none => .bool ⟨token, .illegal⟩ false

/-- Reads a name with its type, and gives it the zero value of that type. -/
def typedVar : Parse (Var × Expr) := do
  let token ← cur
  advance
  advance
  let ty ← type
  let value := zeroValue ty (← cur)
  if ty.kind = .illegal then
    reportAt token (.badTypedDecl token.literal)
  return (⟨token, token.literal, ty⟩, value)

/-- What is wrong with declaring a variable here. -/
def State.declProblem? (s : State) (name : String) (allowAnonymous : Bool) : Option Problem :=
  if s.prelude.isGlobal name then some (.globalRedeclared name)
  else if s.scopes.declares name then some (.redeclared name)
  else if s.isFunc name then some (.declaredAsFunction name)
  else if !allowAnonymous && name = "_" then some .anonymousDeclared
  else none

/-- Whether a variable can be declared here; reports it if not. -/
def checkDecl (v : Var) (allowAnonymous : Bool) : Parse Bool := do
  match (← get).declProblem? v.name allowAnonymous with
  | none => return true
  | some problem =>
    reportAt v.token problem
    return false

/-- Reads a declaration with a type. -/
def typedDecl : Parse Stmt := do
  let (v, value) ← typedVar
  if v.ty.kind ≠ .illegal then
    if ← checkDecl v false then
      declareVar v
      expectLineEnd
  let comment ← comment?
  nextLine
  return .typedDecl v.token comment v value

/-- Reads a declaration that takes its type from the value. -/
def inferredDecl : Attempt Stmt := OptionT.mk do
  let stmt ← OptionT.run do
    let token ← cur
    advance
    advance
    let valueToken ← cur
    let some value ← OptionT.lift topLevelExpr.run | fail (.badInferredDecl token.literal)
    if value.ty.same .none then
      fail (.noValueDeclared valueToken.literal)
    let value := value.infer
    let v : Var := ⟨token, token.literal, value.ty.infer.unfixed⟩
    unless ← checkDecl v false do
      failure
    declareVar v
    expectLineEnd
    let comment ← OptionT.lift comment?
    return Stmt.inferredDecl token comment v value
  nextLine
  return stmt

/-! ### Simple statements -/

/-- Reads a line without a statement. -/
def emptyLine : Parse Stmt := do
  let token ← cur
  let comment ← comment?
  if token.kind = .comment then advance
  advance
  return .empty token comment

/-- Reads indexes and fields after an assignment's target, whose name is at `token`. -/
def targetWithin (token : Token) : (fuel : Nat) → (target : Expr) → Attempt Expr
  | 0, target => return target
  | fuel + 1, target => do
    match ← kind with
    | .lBracket =>
      if target.ty.same .string then
        failAt token .assignToStringIndex
      let target ← indexOrSlice nested target false
      targetWithin token fuel target
    | .dot =>
      let target ← field target
      targetWithin token fuel target
    | _ => return target

/-- Reads the target of an assignment. -/
def assignTarget : Attempt Expr := do
  let token ← cur
  advance
  if token.literal = "_" then
    failAt token .anonymousAssigned
  let some v ← OptionT.lift (readVar? token.literal)
    | failAt token (.unknownVariable token.literal)
  targetWithin token (← get).fuel (.ofVar v token)

/-- Reads an assignment. -/
def assignment : Attempt Stmt := orNextLine do
  let token ← cur
  if ← isFunc token.literal then
    fail (.assignToFunction token.literal)
  let target ← assignTarget
  let _ ← expect .assign
  advance
  let value ← topLevelExpr
  unless target.ty.accepts value.ty do
    reportAt token (.assignType target value.ty)
  expectLineEnd
  let comment ← OptionT.lift comment?
  nextLine
  return .assign token comment target (value.wrap target.ty)

/-- Reads a call for its effect. -/
def callStmt : Attempt Stmt := orNextLine do
  let c ← call nested
  expectLineEnd
  let comment ← OptionT.lift comment?
  nextLine
  return .call c.token comment c.name c.args c.result

/-- Reads a `return`. -/
def returnStmt : Parse Stmt := do
  let token ← cur
  advance
  let valueToken ← cur
  let ended ← atLineEnd
  let value ← if ended then pure none else topLevelExpr.run
  if value.isSome then expectLineEnd
  let ty := match value with
    | some e => e.ty
    | none => if ended then .none else .illegal
  let mut value := value
  match (← get).scopes.result? with
  | none => reportAt valueToken .returnOutside
  | some result =>
    if result.accepts ty then
      value := value.map (Expr.wrap result)
    else if result.same .none && !ty.same .none then
      reportAt valueToken (.returnsValue ty)
    else
      reportAt valueToken (.returnType result ty)
  let comment ← comment?
  nextLine
  return .ret token comment value

/-- Reads a `break`. -/
def breakStmt : Parse Stmt := do
  let token ← cur
  unless (← get).scopes.inLoop do
    report .breakOutside
  advance
  expectLineEnd
  let comment ← comment?
  nextLine
  return .brk token comment

/-! ### Statements with blocks -/

/-- Reads the end of a block and the rest of its line, and gives the comment on it. -/
def blockEnd : Parse (Option String) := do
  let _ ← expect .end
  advance
  let comment ← comment?
  nextLine
  return comment

/-- Reads a condition. -/
def condition : Attempt Expr := do
  let token ← cur
  let e ← topLevelExpr
  expectLineEnd
  unless e.ty.same .bool do
    reportAt token (.conditionType e.ty)
  return e

/-- Reads a condition and the block that runs if it holds, from the keyword on. -/
def branch (block : Blocks) (ends : List TokenKind) : Parse (Option Branch) := do
  let token ← cur
  advance
  let condition ← condition.run
  let comment ← comment?
  nextLine
  let body ← block ends
  return condition.map fun e => .mk token comment e body

/-- Reads a `while` loop. -/
def whileStmt (block : Blocks) : Attempt Stmt := OptionT.mk do
  let token ← cur
  advance
  enterScope .whileLoop
  let condition ← condition.run
  let comment ← comment?
  nextLine
  let body ← block [.end, .eof]
  leaveScope
  let endComment ← blockEnd
  return condition.map fun e => .loop token (.mk token comment e (body.withComment endComment))

/-- Reads a branch in a scope of its own. -/
def scopedBranch (block : Blocks) : Parse (Option Branch) := do
  enterScope .branch
  let b ← branch block [.end, .eof, .else]
  leaveScope
  return b

/-- Reads the further branches of an `if`, after those in `done`. -/
def moreBranches (block : Blocks) :
    (fuel : Nat) → (done : Array (Option Branch)) → Parse (List (Option Branch))
  | 0, done => return done.toList
  | fuel + 1, done => do
    let s ← get
    if s.cur.kind = .else && s.peek.kind = .if then
      advance
      let b ← scopedBranch block
      moreBranches block fuel (done.push b)
    else
      return done.toList

/-- Reads the last part of an `if`, which runs if no condition holds. -/
def otherwise (block : Blocks) : Parse (Option Block) := do
  if (← kind) ≠ .else then return none
  advance
  expectLineEnd
  let comment ← comment?
  nextLine
  enterScope .branch
  let body ← block [.end, .eof]
  leaveScope
  return some (body.withComment comment)

/-- Reads an `if`. -/
def ifStmt (block : Blocks) : Attempt Stmt := OptionT.mk do
  let token ← cur
  let first ← scopedBranch block
  let more ← moreBranches block (← get).fuel #[]
  let last ← otherwise block
  let comment ← blockEnd
  return do
    let first ← first
    let more ← more.mapM id
    return .cond token comment first more last

/-- The first argument of a range that is not a number, counting from `index`. -/
def badRangeArgument? : (index : Nat) → List Expr → Option (Nat × Ty)
  | _, [] => none
  | index, e :: es =>
    if e.ty.same .num then badRangeArgument? (index + 1) es else some (index, e.ty)

/-- The range of numbers with the given arguments. -/
def stepRange (args : List Expr) (token : Token) : Attempt Range := do
  if 3 < args.length then
    failAt token (.rangeCount args.length)
  if let some (index, ty) := badRangeArgument? 1 args then
    failAt token (.rangeArgumentType index ty)
  match args with
  | [stop] => return .step none stop none
  | [start, stop] => return .step (some start) stop none
  | [start, stop, stride] => return .step (some start) stop (some stride)
  | _ => failure

/-- The range with the given arguments and the type of its values. -/
def rangeOf (first : Expr) (args : List Expr) (token : Token) : Parse (Option Range × Ty) := do
  let ty := first.ty
  match ty.kind with
  | .string | .map => return (some (.over first), .string)
  | .array => return (some (.over first), ty.infer.elem)
  | .num => return (← (stepRange args token).run, .num)
  | _ =>
    report (.rangeType ty)
    return (none, .illegal)

/-- Reads the variable of a `for` loop, if it has one. Its type is not known yet. -/
def loopVar : Attempt (Option Var) := do
  let token ← cur
  if token.kind ≠ .ident then return none
  let v : Var := ⟨token, token.literal, .none⟩
  unless ← checkDecl v false do
    failure
  advance
  let _ ← expect .declare
  advance
  return some v

/-- The head of a `for` loop: its variable, its range and the type of the range's values. -/
structure EachHead where
  var : Option Var
  range : Option Range
  ty : Ty

/-- Reads the head of a `for` loop after its keyword. -/
def eachHead : Attempt EachHead := orNextLine do
  let var ← loopVar
  require .range
  let token ← cur
  advance
  let args ← exprList nested
  let first :: _ := args | fail .rangeEmpty
  if 1 < args.length && !first.ty.same .num then
    fail (.rangeArguments first.ty)
  expectLineEnd
  let (range, ty) ← OptionT.lift (rangeOf first args token)
  return ⟨var, range, ty⟩

/-- Reads a `for` loop whose scope is open. The scope is closed once the body has been read. -/
def eachBody (block : Blocks) (token : Token) : Attempt Stmt := do
  advance
  let head ← eachHead
  let var := head.var.map fun v => { v with ty := head.ty }
  var.forM fun v => declareVar v
  let comment ← OptionT.lift comment?
  nextLine
  let body ← block [.end, .eof]
  leaveScope
  let endComment ← OptionT.lift blockEnd
  let some range := head.range | failure
  return .each token comment var range (body.withComment endComment)

/-- Reads a `for` loop. Without a result the innermost scope is dropped, also if the loop's own
scope has been closed by then. -/
def eachStmt (block : Blocks) : Attempt Stmt := OptionT.mk do
  let token ← cur
  enterScope .forLoop
  let stmt ← (eachBody block token).run
  if stmt.isNone then dropScope
  return stmt

/-- Reads a statement inside a block or at the top. -/
def statement (block : Blocks) : Attempt Stmt := do
  let s ← get
  match s.cur.kind with
  | .ws =>
    advance
    failure
  | .nl | .comment => emptyLine
  | .ident =>
    match s.peek.kind with
    | .assign | .dot => assignment
    | .colon => typedDecl
    | .declare => inferredDecl
    | next =>
      if s.isFunc s.cur.literal then callStmt
      else if next = .lBracket then assignment
      else orNextLine (fail (.unknownFunction s.cur.literal))
  | .return => returnStmt
  | .break => breakStmt
  | .for => eachStmt block
  | .while => whileStmt block
  | .if => ifStmt block
  | _ => orNextLine (fail (.unexpectedInput s.cur))

/-- Reads statements up to a token that ends the block, after those in `done`, and drops those that
are never reached. -/
def stmtsWithin (block : Blocks) (ends : List TokenKind) :
    (fuel : Nat) → (done : Array Stmt) → (terminated : Bool) → Parse (List Stmt)
  | 0, done, _ => return done.toList
  | fuel + 1, done, terminated => do
    let token ← cur
    if ends.contains token.kind then return done.toList
    match ← (statement block).run with
    | none => stmtsWithin block ends fuel done terminated
    | some stmt =>
      if terminated && !stmt.isEmpty then
        reportAt token .unreachable
        stmtsWithin block ends fuel done terminated
      else
        stmtsWithin block ends fuel (done.push stmt) (terminated || stmt.terminates)

/-- Reads a block by a parser for the blocks that are nested in it. -/
def blockBy (inner : Blocks) : Blocks := fun ends => do
  let token ← cur
  let stmts ← stmtsWithin inner ends (← get).fuel #[] false
  if stmts.isEmpty then
    reportAt token .emptyBlock
  return .mk token none stmts

/-- Reads a block nested at most `fuel` deep. -/
def blockWithin : (fuel : Nat) → Blocks
  | 0, _ => return default
  | fuel + 1, ends => blockBy (blockWithin fuel) ends

/-- Reads a block. -/
def block : Blocks := fun ends => do
  blockWithin (← get).fuel ends

end TinyScript.Parsing
