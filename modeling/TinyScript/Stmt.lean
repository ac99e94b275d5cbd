import TinyScript.Expr

/-! # Statements and programs

Statements, the blocks and branches they nest in, and programs. A comment at the end of a line is
kept with the statement, branch or block whose line it ends. -/

namespace TinyScript

mutual

/-- Statements. -/
inductive Stmt where
  /-- A blank line, or a line with only a comment. -/
  | empty (token : Token) (comment : Option String)
  | typedDecl (token : Token) (comment : Option String) (var : Var) (value : Expr)
  | inferredDecl (token : Token) (comment : Option String) (var : Var) (value : Expr)
  | assign (token : Token) (comment : Option String) (target value : Expr)
  | call (token : Token) (comment : Option String) (name : String) (args : List Expr) (result : Ty)
  | ret (token : Token) (comment : Option String) (value : Option Expr)
  | brk (token : Token) (comment : Option String)
  | cond (token : Token) (comment : Option String) (first : Branch) (more : List Branch)
    (otherwise : Option Block)
  | loop (token : Token) (branch : Branch)
  | each (token : Token) (comment : Option String) (var : Option Var) (range : Range) (body : Block)
  | func (token : Token) (comment : Option String) (signature : Signature) (body : Block)
  | on (token : Token) (comment : Option String) (name : String) (params : List Var) (body : Block)

/-- A condition with the block that runs if it holds. -/
inductive Branch where
  | mk (token : Token) (comment : Option String) (condition : Expr) (body : Block)

/-- The statements up to the end of a block. -/
inductive Block where
  | mk (token : Token) (comment : Option String) (stmts : List Stmt)

end

instance : Inhabited Block := ⟨.mk default none []⟩
instance : Inhabited Branch := ⟨.mk default none default default⟩
instance : Inhabited Stmt := ⟨.empty default none⟩

namespace Block

def token : Block → Token
  | mk t _ _ => t

/-- The comment on the line that opens or ends the block, whichever the block keeps. -/
def comment : Block → Option String
  | mk _ c _ => c

def stmts : Block → List Stmt
  | mk _ _ ss => ss

def withComment (b : Block) (comment : Option String) : Block :=
  mk b.token comment b.stmts

end Block

namespace Branch

def token : Branch → Token
  | mk t _ _ _ => t

def comment : Branch → Option String
  | mk _ c _ _ => c

def condition : Branch → Expr
  | mk _ _ c _ => c

def body : Branch → Block
  | mk _ _ _ b => b

end Branch

namespace Stmt

def token : Stmt → Token
  | empty t _ | typedDecl t _ _ _ | inferredDecl t _ _ _ | assign t _ _ _ | call t _ _ _ _
  | ret t _ _ | brk t _ | cond t _ _ _ _ | loop t _ | each t _ _ _ _ | func t _ _ _
  | on t _ _ _ _ => t

/-- Whether the line holds no statement. -/
def isEmpty : Stmt → Bool
  | empty .. => true
  | _ => false

end Stmt

/-! ### Statements that never hand on -/

mutual

/-- Whether the statement never hands control to the one after it. -/
def Stmt.terminates : Stmt → Bool
  | .ret .. | .brk .. => true
  | .cond _ _ first more (some otherwise) =>
    otherwise.terminates && first.terminates && allTerminate more
  | _ => false

def Branch.terminates : Branch → Bool
  | .mk _ _ _ body => body.terminates

/-- Whether the block never hands control to what comes after it. -/
def Block.terminates : Block → Bool
  | .mk _ _ stmts => anyTerminates stmts

def anyTerminates : List Stmt → Bool
  | [] => false
  | s :: ss => s.terminates || anyTerminates ss

def allTerminate : List Branch → Bool
  | [] => true
  | b :: bs => b.terminates && allTerminate bs

end

/-! ### Programs -/

/-- A declared function. -/
structure Function where
  signature : Signature
  body : Block
  deriving Inhabited

/-- A handler of an event. -/
structure Handler where
  name : String
  params : List Var
  body : Block
  deriving Inhabited

/-- A program: its statements, and the functions and handlers among them by name. -/
structure Program where
  stmts : List Stmt
  funcs : List Function
  handlers : List Handler
  deriving Inhabited

end TinyScript
