import TinyScript.Bytecode.Assembly
import TinyScript.Stmt

/-! # Compilation

The code of programs without functions and handlers. Operands are computed from left to right, and
every variable lives in a global slot. -/

namespace TinyScript.Bytecode

open Assemble

/-- The operation for an operator whose left operand is of a kind. -/
def opcodeOf? (op : BinaryOp) (operand : Kind) : Option Opcode :=
  match op, operand with
  | .add, .num => some .add
  | .add, .string => some .stringConcatenate
  | .add, .array => some .arrayConcatenate
  | .sub, _ => some .subtract
  | .mul, _ => some .multiply
  | .div, _ => some .divide
  | .rem, _ => some .modulo
  | .eq, _ => some .equal
  | .notEq, _ => some .notEqual
  | .lt, .string => some .stringLess
  | .ltEq, .string => some .stringLessEqual
  | .gt, .string => some .stringGreater
  | .gtEq, .string => some .stringGreaterEqual
  | .lt, _ => some .numLess
  | .ltEq, _ => some .numLessEqual
  | .gt, _ => some .numGreater
  | .gtEq, _ => some .numGreaterEqual
  | .add, _ | .and, _ | .or, _ => none

def opcodeOfUnary : UnaryOp → Opcode
  | .neg => .minus
  | .not => .not

mutual

/-- Compiles an expression, which leaves its value on the stack. -/
def compileExpr : Expr → Assemble Unit
  | .num _ x => emitConstant (.num x)
  | .str _ s => emitConstant (.str s)
  | .bool _ b => put (if b then .true else .false) []
  | .var _ name => do put .getGlobal [← resolve name]
  | .array _ _ elems => do
    compileList elems
    put .array [elems.length]
  | .map _ _ pairs => do
    compilePairs pairs
    put .map [pairs.length * 2]
  | .unary _ op operand => do
    compileExpr operand
    put (opcodeOfUnary op) []
  | .binary _ .and _ left right => do
    compileExpr left
    let short ← emit .jumpNotTruthy [placeholder]
    compileExpr right
    let stop ← emit .jump [placeholder]
    patch short 0
    put .false []
    patch stop 0
  | .binary _ .or _ left right => do
    compileExpr left
    let more ← emit .jumpNotTruthy [placeholder]
    put .true []
    let stop ← emit .jump [placeholder]
    patch more 0
    compileExpr right
    patch stop 0
  | .binary m op _ left right => do
    compileExpr left
    compileExpr right
    match opcodeOf? op left.ty.kind with
    | some code => put code []
    | none => unsupported .binaryOperator m.token
  | .index _ left key => do
    compileExpr left
    compileExpr key
    put .index []
  | .slice _ left start stop => do
    compileExpr left
    compileOptional start
    compileOptional stop
    put .slice []
  | .dot _ left key => do
    compileExpr left
    emitConstant (.str key)
    put .index []
  | .group _ inner => compileExpr inner
  | .any _ inner => compileExpr inner
  | .call m .. => unsupported .functionCall m.token
  | .assert m _ => unsupported .typeAssertion m.token

def compileList : List Expr → Assemble Unit
  | [] => pure ()
  | e :: es => do
    compileExpr e
    compileList es

def compilePairs : List (String × Expr) → Assemble Unit
  | [] => pure ()
  | (key, e) :: es => do
    emitConstant (.str key)
    compileExpr e
    compilePairs es

/-- Compiles an expression that can be left out. -/
def compileOptional : Option Expr → Assemble Unit
  | some e => compileExpr e
  | none => put .none []

end

/-- Compiles a declaration. The variable cannot be used in its own value. -/
def compileDecl (var : Var) (value : Expr) : Assemble Unit := do
  compileExpr value
  put .setGlobal [← define var.name]

/-- Compiles the change of what an expression denotes. -/
def compileAssign (target value : Expr) : Assemble Unit := do
  compileExpr value
  match target with
  | .var _ name => put .setGlobal [← resolve name]
  | .index _ left key =>
    compileExpr left
    compileExpr key
    put .setIndex []
  | .dot _ left key =>
    compileExpr left
    emitConstant (.str key)
    put .setIndex []
  | e => unsupported .assignmentTarget e.token

/-- Compiles what a loop runs through. -/
def compileRange : Range → Assemble Unit
  | .step start stop stride => do
    compileOptional start
    compileExpr stop
    compileOptional stride
    put .stepRange []
  | .over e => compileExpr e

/-- Compiles the head of a loop. The result is its place. -/
def compileHead (var : Option Var) : Assemble Nat := do
  let head ← emit .iterRange [if var.isSome then 1 else 0, placeholder]
  match var with
  | some x => put .setGlobal [← define x.name]
  | none => pure ()
  return head

mutual

/-- Compiles a statement, which leaves the stack as it was. -/
def compileStmt : Stmt → Assemble Unit
  | .empty .. => pure ()
  | .typedDecl _ _ var value | .inferredDecl _ _ var value => compileDecl var value
  | .assign _ _ target value => compileAssign target value
  | .cond _ _ first more otherwise => do
    let stop ← compileBranch first
    let stops ← compileBranches #[stop] more
    match otherwise with
    | some block => compileBlock block
    | none => pure ()
    patchAll stops.toList
  | .loop _ (.mk _ _ test body) => do
    let start ← here
    compileExpr test
    let stop ← emit .jumpNotTruthy [placeholder]
    loopBody start false (compileBlock body)
    patch stop 0
  | .each _ _ var range body => do
    compileRange range
    let head ← nested do
      let head ← compileHead var
      loopBody head true (compileBlock body)
      return head
    patch head 1
  | .brk token _ => breakLoop token
  | .call token .. => unsupported .functionCall token
  | .ret token .. => unsupported .ret token
  | .func token .. => unsupported .functionDeclaration token
  | .on token .. => unsupported .eventHandler token

/-- Compiles a branch. The result is the place of the jump at its end. -/
def compileBranch : Branch → Assemble Nat
  | .mk _ _ test body => do
    compileExpr test
    let skip ← emit .jumpNotTruthy [placeholder]
    compileBlock body
    let stop ← emit .jump [placeholder]
    patch skip 0
    return stop

/-- Compiles branches. The result is the places of the jumps at their ends, after those before. -/
def compileBranches (stops : Array Nat) : List Branch → Assemble (Array Nat)
  | [] => return stops
  | b :: bs => do
    let stop ← compileBranch b
    compileBranches (stops.push stop) bs

def compileBlock : Block → Assemble Unit
  | .mk _ _ stmts => nested (compileStmts stmts)

def compileStmts : List Stmt → Assemble Unit
  | [] => pure ()
  | s :: ss => do
    compileStmt s
    compileStmts ss

end

/-- Compiles a program after those that the assembly holds already. -/
def Assembly.compile (a : Assembly) (p : Program) : Except CompileError Assembly := do
  let (_, a) ← (compileStmts p.stmts).run a
  return a

end TinyScript.Bytecode
