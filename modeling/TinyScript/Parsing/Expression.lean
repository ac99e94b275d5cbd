import TinyScript.Expr.Retype
import TinyScript.Parsing.Type
import TinyScript.Text.Blank

/-! # Reading expressions

Expressions by precedence. Every construct is a parser over `self`, the parser for the expressions
nested in it, and `exprWithin` ties the knot: what is nested starts at a later token, so the number
of tokens bounds the nesting. Types are checked on the way. -/

namespace TinyScript.Parsing

/-- How strongly an operator binds. -/
inductive Precedence where
  | lowest | or | and | equals | lessGreater | sum | product | unary | index
  deriving DecidableEq, Repr, Inhabited

/-- Precedences as numbers; stronger ones are larger. -/
def Precedence.level : Precedence → Nat
  | .lowest => 0 | .or => 1 | .and => 2 | .equals => 3 | .lessGreater => 4
  | .sum => 5 | .product => 6 | .unary => 7 | .index => 8

/-- How strongly a token binds what is on its left. -/
def precedenceOf : TokenKind → Precedence
  | .or => .or
  | .and => .and
  | .eq | .notEq => .equals
  | .lt | .gt | .ltEq | .gtEq => .lessGreater
  | .plus | .minus => .sum
  | .asterisk | .slash | .percent => .product
  | .lBracket | .dot => .index
  | _ => .lowest

/-- Whether a token stands between two operands. -/
def isBinary (k : TokenKind) : Bool :=
  (BinaryOp.ofToken? k).isSome

/-- A parser for nested expressions that bind more strongly than the given precedence. -/
abbrev Nested := Precedence → Attempt Expr

/-! ### Calls -/

/-- Reads an expression among others that blanks separate. -/
def spacedExpr (self : Nested) : Attempt Expr :=
  withSpacing true (self .lowest)

/-- Whether a list of expressions ends here. -/
def atListEnd : Parse Bool := do
  match ← kind with
  | .rParen | .rBracket | .eof => return true
  | _ => atLineEnd

/-- Reads expressions up to the end of the line or a closing bracket, after those in `done`. -/
def exprListWithin (self : Nested) : (fuel : Nat) → (done : Array Expr) → Attempt (List Expr)
  | 0, done => return done.toList
  | fuel + 1, done => do
    if ← atListEnd then return done.toList
    let e ← spacedExpr self
    skipBlank
    exprListWithin self fuel (done.push e)

/-- Reads expressions up to the end of the line or a closing bracket. -/
def exprList (self : Nested) : Attempt (List Expr) := do
  exprListWithin self (← get).fuel #[]

/-- Whether an argument of type `found` goes into a parameter of type `param`. -/
def takesArgument (param found : Ty) : Bool :=
  param.accepts found || param.fits found

/-- Reports the arguments that do not fit their parameters, counting from `index`. -/
def reportArguments (name : String) : (index : Nat) → List Var → List Expr → Parse Unit
  | index, p :: ps, e :: es => do
    unless takesArgument p.ty e.ty do
      reportAt e.token (.argumentType name index p.ty e.ty)
    reportArguments name (index + 1) ps es
  | _, _, _ => return

/-- Checks the arguments of a call and fits them to the parameters. -/
def checkArguments (signature : Signature) (args : List Expr) : Parse (List Expr) := do
  match signature.variadic with
  | some rest =>
    args.forM fun e => do
      unless takesArgument rest.ty e.ty do
        reportAt e.token (.variadicType signature.name rest.ty e.ty)
    return args.map (Expr.wrap rest.ty)
  | none =>
    let params := signature.params
    if params.length ≠ args.length then
      let token := ((args[params.length]?).map Expr.token).getD (← get).cur
      reportAt token (.argumentCount signature.name params.length args.length)
      return args
    reportArguments signature.name 1 params args
    return args.zipWith (fun e p => e.wrap p.ty) params

/-- A call with the token of its name. -/
structure Call where
  token : Token
  name : String
  args : List Expr
  result : Ty

/-- Reads a call of a known function. -/
def call (self : Nested) : Attempt Call := do
  let token ← cur
  let some signature := (← get).func? token.literal | failure
  advance
  let args ← exprList self
  let args ← checkArguments signature args
  return ⟨token, token.literal, args, signature.result⟩

/-- Reads an expression where a call needs no parentheses. -/
def topLevel (self : Nested) : Attempt Expr := do
  let token ← cur
  if token.kind = .ident && (← isFunc token.literal) then
    let c ← call self
    return .call ⟨c.token, c.result.fixed⟩ c.name c.args c.result
  else
    self .lowest

/-! ### Literals -/

/-- Collects line ends and comments between the elements of a literal, after those in `done`. -/
def layoutWithin : (fuel : Nat) → (done : Array LayoutItem) → Parse (Array LayoutItem)
  | 0, done => return done
  | fuel + 1, done => do
    let token ← cur
    match token.kind with
    | .nl =>
      advanceOne
      layoutWithin fuel (done.push .newline)
    | .comment =>
      advanceOne
      let _ ← expect .nl
      advanceOne
      layoutWithin fuel (done.push (.comment (Text.trim token.literal)))
    | .ws =>
      advanceOne
      layoutWithin fuel done
    | _ => return done

/-- Collects line ends and comments between the elements of a literal. -/
def layoutItems (done : Array LayoutItem) : Parse (Array LayoutItem) := do
  layoutWithin (← get).fuel done

/-- Reads the elements of an array literal, after those in `elems` with their layout. -/
def elementsWithin (self : Nested) :
    (fuel : Nat) → Array LayoutItem → (elems : Array Expr) → Attempt (List LayoutItem × List Expr)
  | 0, layout, elems => return (layout.toList, elems.toList)
  | fuel + 1, layout, elems => do
    match ← kind with
    | .rBracket | .eof => return (layout.toList, elems.toList)
    | _ =>
      let e ← spacedExpr self
      let layout ← layoutItems (layout.push .element)
      elementsWithin self fuel layout (elems.push e)

/-- Reads an array literal. -/
def arrayLiteral (self : Nested) : Attempt Expr := do
  let token ← cur
  advance
  let layout ← layoutItems #[]
  let (layout, elems) ← elementsWithin self (← get).fuel layout #[]
  require .rBracket
  advance
  let elem := Ty.combine (elems.map Expr.ty)
  if elems.isEmpty then return .array ⟨token, .emptyArray⟩ layout []
  return .array ⟨token, .array elem⟩ layout (elems.map (Expr.wrap elem))

/-- Reads the pairs of a map literal, after those in `pairs` with their layout. -/
def pairsWithin (self : Nested) :
    (fuel : Nat) → Array LayoutItem → (pairs : Array (String × Expr)) →
      Attempt (List LayoutItem × List (String × Expr))
  | 0, layout, pairs => return (layout.toList, pairs.toList)
  | fuel + 1, layout, pairs => do
    let token ← cur
    match token.kind with
    | .rCurly | .eof => return (layout.toList, pairs.toList)
    | .ident =>
      let key := token.literal
      if pairs.any (·.1 == key) then
        fail (.duplicateKey key)
      advance
      require .colon
      advance
      let value ← spacedExpr self
      let layout ← layoutItems (layout.push .element)
      pairsWithin self fuel layout (pairs.push (key, value))
    | _ => fail (.expectedKey token)

/-- Reads a map literal. -/
def mapLiteral (self : Nested) : Attempt Expr := withSpacing false do
  let token ← cur
  advance
  let layout ← layoutItems #[]
  let (layout, pairs) ← pairsWithin self (← get).fuel layout #[]
  require .rCurly
  advanceOne
  let elem := Ty.combine (pairs.map (·.2.ty))
  if pairs.isEmpty then return .map ⟨token, .emptyMap⟩ layout []
  return .map ⟨token, .map elem⟩ layout (pairs.map fun (k, v) => (k, v.wrap elem))

/-- Reads a number literal. -/
def numLiteral : Attempt Expr := do
  let token ← cur
  advance
  match Decimal.readFloat? token.literal with
  | some value => return .num ⟨token, .num⟩ value
  | none => failAt token (.malformedNumber token.literal)

/-! ### Operands -/

/-- Reads a variable. -/
def readVariable : Attempt Expr := do
  let token ← cur
  advance
  let name := token.literal
  if name = "_" then
    failAt token .anonymousRead
  match ← OptionT.lift (readVar? name) with
  | some v => return .ofVar v token
  | none =>
    if ← isFunc name then failAt token (.callNotGrouped name)
    else failAt token (.unknownVariable name)

/-- Reads an operator with one operand. -/
def unary (self : Nested) (op : UnaryOp) : Attempt Expr := do
  let token ← cur
  advance
  if ((← get).prev?.map (·.kind)) = some .ws then
    failAt token (.blankAfter (Text.quote op.text))
  let operand ← self .unary
  let expected := match op with
    | .neg => Ty.num
    | .not => Ty.bool
  unless operand.ty.same expected do
    failAt token (.unaryType op expected operand.ty)
  return .unary ⟨token, operand.ty⟩ op operand

/-- Reads an expression in parentheses. -/
def grouped (self : Nested) : Attempt Expr := withSpacing false do
  let token ← cur
  advance
  let inner? ← OptionT.lift (topLevel self).run
  let closed ← expect .rParen
  let some inner := inner? | failure
  unless closed do failure
  advanceOne
  return .group ⟨token, inner.ty⟩ inner

/-- Reports a token that starts no expression. Blanks around an operator are named as the cause
where they separate expressions. -/
def reportOperand : Parse Unit := do
  let s ← get
  let token := s.cur
  match s.isSpaced, s.prev? with
  | true, some prev =>
    if isBinary token.kind && prev.kind = .ws then
      report (.blankBefore token.describe)
    else if token.kind = .ws && isBinary prev.kind then
      reportAt prev (.blankAfter prev.describe)
    else
      report (.unexpectedToken token)
  | _, _ => report (.unexpectedToken token)

/-- Reads what an expression starts with. -/
def operand (self : Nested) : Attempt Expr := do
  let token ← cur
  match token.kind with
  | .ident => readVariable
  | .stringLit =>
    advance
    return .str ⟨token, .string⟩ token.literal
  | .numLit => numLiteral
  | .true =>
    advance
    return .bool ⟨token, .bool⟩ true
  | .false =>
    advance
    return .bool ⟨token, .bool⟩ false
  | .lBracket => arrayLiteral self
  | .lCurly => mapLiteral self
  | .bang => unary self .not
  | .minus => unary self .neg
  | .lParen => grouped self
  | _ =>
    reportOperand
    failure

/-! ### Operators -/

/-- Lets `+` join arrays of different types where one side is a literal that can be retyped. -/
def joinable (op : BinaryOp) (left right : Expr) : Expr × Expr :=
  if op ≠ .add || left.ty.kind ≠ .array || right.ty.kind ≠ .array || left.ty.fits right.ty then
    (left, right)
  else if left.ty.accepts right.ty then (left, right.wrap left.ty)
  else if right.ty.accepts left.ty then (left.wrap right.ty, right)
  else (left, right)

/-- What is wrong with the operands of an operator. -/
def operandProblem? (op : BinaryOp) (left right : Ty) : Option Problem :=
  if !left.fits right then some (.mismatched op left right)
  else
    match op with
    | .add =>
      if left.same .num || left.same .string || left.kind = .array then none
      else some (.operandType op "num, string or array" left)
    | .sub | .mul | .div | .rem =>
      if left.same .num then none else some (.operandType op "num" left)
    | .lt | .gt | .ltEq | .gtEq =>
      if left.same .num || left.same .string then none
      else some (.operandType op "num or string" left)
    | .and | .or => if left.same .bool then none else some (.operandType op "bool" left)
    | .eq | .notEq => none

/-- The type of an operator's result. -/
def resultType (op : BinaryOp) (left right : Ty) : Ty :=
  if op.isComparison then .bool
  else if left.isEmpty then right
  else if right.isFixed then left.fixed
  else left

/-- Reads an operator with two operands after the first of them. -/
def binary (self : Nested) (op : BinaryOp) (left : Expr) : Attempt Expr := do
  let token ← cur
  advance
  let right ← self (precedenceOf token.kind)
  let (left, right) := joinable op left right
  if let some problem := operandProblem? op left.ty right.ty then
    failAt token problem
  let tight := (← get).isSpaced
  return .binary ⟨token, resultType op left.ty right.ty⟩ op tight left right

/-- Reads the rest of a slice after its colon. -/
def sliceRest (self : Nested) (token : Token) (left : Expr) (start : Option Expr) :
    Attempt Expr := do
  unless left.ty.kind = .array || left.ty.kind = .string do
    failAt token (.notSliceable left.ty)
  let stop ← do
    if (← kind) = .rBracket then pure none else some <$> topLevel self
  require .rBracket
  for bound in start.toList ++ stop.toList do
    unless bound.ty.same .num do
      failAt bound.token (.sliceBound bound.ty)
  advanceOne
  return .slice ⟨token, left.ty.unfixed⟩ left start stop

/-- Reads an index or a slice after what it applies to. -/
def indexOrSlice (self : Nested) (left : Expr) (allowSlice : Bool) : Attempt Expr :=
  withSpacing false do
    let token ← cur
    if ((← get).prev?.map (·.kind)) = some .ws then
      fail (.blankBefore (Text.quote "["))
    advance
    let container := left.ty.kind
    unless container = .array || container = .map || container = .string do
      failAt token (.notIndexable left.ty)
    if allowSlice && (← kind) = .colon then
      advance
      return ← sliceRest self token left none
    let key ← topLevel self
    if allowSlice && (← kind) = .colon then
      advance
      return ← sliceRest self token left (some key)
    require .rBracket
    let expected := if container = .map then Ty.string else Ty.num
    unless key.ty.same expected do
      failAt token (.indexType container expected key.ty)
    advanceOne
    let ty := if container = .string then Ty.string else left.ty.elem.fixed
    return .index ⟨token, ty⟩ left key

/-- Ends the attempt if there are blanks around a dot. -/
def requireTightDot : Attempt Unit := do
  let s ← get
  if (s.prev?.map (·.kind)) = some .ws then
    fail (.blankBefore (Text.quote "."))
  if (s.tokenAt (s.pos + 1)).kind = .ws then
    fail (.blankAfter (Text.quote "."))

/-- Reads a field after the map it belongs to. -/
def field (left : Expr) : Attempt Expr := do
  let token ← cur
  requireTightDot
  advanceOne
  unless left.ty.kind = .map do
    failAt token (.noFields left.ty)
  let key ← cur
  unless key.kind = .ident do
    failAt token (.dotWithoutKey key.kind)
  advance
  return .dot ⟨token, left.ty.elem.fixed⟩ left key.literal

/-- Reads a type assertion after the value it applies to. All its problems are reported. -/
def typeAssertion (left : Expr) : Attempt Expr := do
  let token ← cur
  requireTightDot
  withSpacing false do
    advance
    advance
    let ty ← type
    let typeProblem : Option Problem :=
      if ty.kind = .illegal then some (.assertUnknownType left)
      else if ty.same .any then some .assertToAny
      else none
    if let some problem := typeProblem then
      reportAt token problem
    let closed ← expect .rParen
    if closed then advanceOne
    let isAny := left.ty.same .any
    unless isAny do
      reportAt token (.assertNotAny left.ty)
    unless typeProblem.isNone && closed && isAny do
      failure
    return .assert ⟨token, ty.fixed⟩ left

/-- Reads one operator after `left`. -/
def afterOperand (self : Nested) (left : Expr) : Attempt Expr := do
  let s ← get
  match BinaryOp.ofToken? s.cur.kind with
  | some op => binary self op left
  | none =>
    if s.cur.kind = .lBracket then indexOrSlice self left true
    else if s.cur.kind = .dot && s.peek.kind = .lParen then typeAssertion left
    else field left

/-- Whether an expression ends here. -/
def atExprEnd : Parse Bool := do
  let s ← get
  return (s.isSpaced && s.cur.kind = .ws) || s.atLineEnd

/-- Reads operators after `left` as long as they bind more strongly than `p`. -/
def operatorsWithin (self : Nested) (p : Precedence) : (fuel : Nat) → (left : Expr) → Attempt Expr
  | 0, left => return left
  | fuel + 1, left => do
    let ended ← atExprEnd
    if ended || (precedenceOf (← kind)).level ≤ p.level then return left
    let left ← afterOperand self left
    operatorsWithin self p fuel left

/-- Reads an expression by a parser for the expressions that are nested in it. -/
def exprBy (self : Nested) : Nested := fun p => do
  let left ← operand self
  operatorsWithin self p (← get).fuel left

/-- Reads an expression nested at most `fuel` deep. -/
def exprWithin : (fuel : Nat) → Nested
  | 0, _ => failure
  | fuel + 1, p => exprBy (exprWithin fuel) p

/-- Reads nested expressions. -/
def nested : Nested := fun p => do
  exprWithin (← get).fuel p

/-- Reads an expression where a call needs no parentheses. -/
def topLevelExpr : Attempt Expr :=
  topLevel nested

end TinyScript.Parsing
