import TinyScript.Bytecode.Cell
import TinyScript.Bytecode.Code
import TinyScript.Bytecode.Symbols

/-! # Code under construction

The state of a compilation: the code so far, its constants, the slots of variables, and the loops
around the current place. Jumps forward get a placeholder, which is changed when their target is
known. -/

namespace TinyScript.Bytecode

/-- Constructs that have no code. -/
inductive Unsupported where
  | functionCall | ret | functionDeclaration | eventHandler | assignmentTarget | breakOutsideLoop
  | binaryOperator | typeAssertion
  deriving DecidableEq, Repr, Inhabited

def Unsupported.name : Unsupported → String
  | .functionCall => "function call" | .ret => "return"
  | .functionDeclaration => "function declaration" | .eventHandler => "event handler"
  | .assignmentTarget => "assignment target" | .breakOutsideLoop => "break outside loop"
  | .binaryOperator => "binary operator" | .typeAssertion => "type assertion"

/-- What code can hold only so much of. -/
inductive Limit where
  | operands | constants | instructions | globals
  deriving DecidableEq, Repr, Inhabited

def Limit.name : Limit → String
  | .operands => "operands" | .constants => "constants" | .instructions => "instructions"
  | .globals => "globals"

/-- Why a program has no code. -/
inductive CompileError where
  | unsupported (what : Unsupported) (place : Position)
  | undefinedVar (name : String)
  | limit (what : Limit)
  deriving DecidableEq, Repr, Inhabited

def CompileError.message : CompileError → String
  | .unsupported what place => place.location ++ ": unsupported " ++ what.name
  | .undefinedVar name => "undefined variable " ++ name
  | .limit what => "too many " ++ what.name

/-- A loop whose code is under construction. -/
structure Loop where
  /-- The places of jumps out of the loop. -/
  breaks : Array Nat := #[]
  /-- Whether the loop keeps an iterator on the stack. -/
  hasIterator : Bool
  deriving Repr, Inhabited

/-- Code under construction. -/
structure Assembly where
  code : Code := #[]
  constants : Array Cell := #[]
  symbols : Symbols := {}
  /-- The loops around the current place, innermost first. -/
  loops : List Loop := []
  deriving Inhabited

/-- Steps of a compilation. -/
abbrev Assemble := StateT Assembly (Except CompileError)

namespace Assemble

/-- The largest operand. -/
def maxWord : Nat := 65535

/-- The operand of a jump whose target is not known yet. -/
def placeholder : Nat := 9999

def unsupported {α : Type} (what : Unsupported) (token : Token) : Assemble α :=
  throw (.unsupported what token.pos)

/-- The place of the next instruction. -/
def here : Assemble Nat :=
  return (← get).code.size

/-- Adds an instruction. The result is its place. -/
def emit (op : Opcode) (operands : List Nat) : Assemble Nat := do
  if operands.any (maxWord < ·) then throw (.limit .operands)
  modifyGet fun a => (a.code.size, { a with code := a.code.append (op.encode operands) })

/-- Adds an instruction whose place does not matter. -/
def put (op : Opcode) (operands : List Nat) : Assemble Unit := do
  let _ ← emit op operands

/-- Adds an instruction that pushes a constant. -/
def emitConstant (c : Cell) : Assemble Unit := do
  let n := (← get).constants.size
  if maxWord < n then throw (.limit .constants)
  modify fun a => { a with constants := a.constants.push c }
  put .constant [n]

/-- Makes operand `i` of the instruction at `pos` the place of the next instruction. -/
def patch (pos i : Nat) : Assemble Unit := do
  let target ← here
  if maxWord < target then throw (.limit .instructions)
  modify fun a => { a with code := a.code.patch pos i target }

/-- Patches jumps to the next instruction. -/
def patchAll (places : List Nat) : Assemble Unit :=
  places.forM (patch · 0)

/-- The slot for a variable that is declared. -/
def define (name : String) : Assemble Nat := do
  let slot ← modifyGet fun a =>
    let (slot, symbols) := a.symbols.define name
    (slot, { a with symbols })
  if maxWord < slot then throw (.limit .globals)
  return slot

/-- The slot of a variable. -/
def resolve (name : String) : Assemble Nat := do
  match (← get).symbols.resolve? name with
  | some slot => return slot
  | none => throw (.undefinedVar name)

/-- Compiles in a block of names of its own. -/
def nested {α : Type} (m : Assemble α) : Assemble α := do
  modify fun a => { a with symbols := a.symbols.nest }
  let r ← m
  modify fun a => { a with symbols := a.symbols.unnest }
  return r

/-- Compiles the body of a loop that starts at `start`: jumps back at its end, and gives the jumps
out of it their target. -/
def loopBody (start : Nat) (hasIterator : Bool) (body : Assemble Unit) : Assemble Unit := do
  modify fun a => { a with loops := { hasIterator } :: a.loops }
  body
  let breaks ← modifyGet fun a =>
    match a.loops with
    | [] => (#[], a)
    | l :: loops => (l.breaks, { a with loops })
  put .jump [start]
  patchAll breaks.toList

/-- Jumps out of the innermost loop, and drops its iterator. -/
def breakLoop (token : Token) : Assemble Unit := do
  match (← get).loops with
  | [] => unsupported .breakOutsideLoop token
  | l :: _ =>
    if l.hasIterator then put .drop [1]
    let pos ← emit .jump [placeholder]
    modify fun a =>
      match a.loops with
      | [] => a
      | l :: loops => { a with loops := { l with breaks := l.breaks.push pos } :: loops }

end Assemble

end TinyScript.Bytecode
