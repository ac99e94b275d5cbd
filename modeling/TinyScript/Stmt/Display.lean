import TinyScript.Expr.Display
import TinyScript.Stmt

/-! # Statements with all their structure

A form of programs for inspection, with blocks in braces. -/

namespace TinyScript

/-- Lines, each followed by a line end. A block without lines still ends one. -/
def lineList (lines : List String) : String :=
  "\n".intercalate lines ++ "\n"

mutual

/-- The statement with all its structure. -/
def Stmt.display : Stmt → String
  | .empty .. => ""
  | .typedDecl _ _ var value | .inferredDecl _ _ var value => var.name ++ "=" ++ value.display
  | .assign _ _ target value => target.display ++ " = " ++ value.display
  | .call _ _ name args _ => name ++ "(" ++ Expr.commaList (Expr.displayAll args) ++ ")"
  | .ret _ _ (some value) => "return " ++ value.display
  | .ret _ _ none => "return"
  | .brk .. => "break"
  | .cond _ _ first more otherwise =>
    "if " ++ first.display ++ displayMore more ++ displayOtherwise otherwise
  | .loop _ branch => "while " ++ branch.display
  | .each _ _ var range body =>
    let target := match var with
      | some v => v.name ++ " := "
      | none => ""
    "for " ++ target ++ range.display ++ " \x7b\n" ++ body.display ++ "\x7d"
  | .func _ _ signature body =>
    let rest := match signature.variadic with
      | some v => v.name ++ "..."
      | none => ""
    signature.name ++ "(" ++ Expr.commaList (signature.params.map (·.name)) ++ rest ++ ")\x7b\n"
      ++ body.display ++ "\x7d\n"
  | .on _ _ name _ body => "on " ++ name ++ " \x7b\n" ++ body.display ++ "\x7d\n"

def Branch.display : Branch → String
  | .mk _ _ condition body =>
    "(" ++ condition.display ++ ") \x7b\n" ++ body.display ++ "\x7d"

def Block.display : Block → String
  | .mk _ _ stmts => lineList (displayStmts stmts)

def displayStmts : List Stmt → List String
  | [] => []
  | s :: ss => s.display :: displayStmts ss

def displayMore : List Branch → String
  | [] => ""
  | b :: bs => "else if" ++ b.display ++ displayMore bs

def displayOtherwise : Option Block → String
  | none => ""
  | some b => "else \x7b\n" ++ b.display ++ "\x7d\n"

end

/-- The program with all its structure. -/
def Program.display (p : Program) : String :=
  lineList (displayStmts p.stmts)

end TinyScript
