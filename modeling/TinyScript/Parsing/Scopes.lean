import TinyScript.Signature

/-! # Scopes of a program under analysis

The scopes that are open at a place in the source, innermost first. Each remembers which of its
variables have been read and which result a `return` in it has to have. -/

namespace TinyScript

/-- The construct that opened a scope. -/
inductive ScopeKind where
  | program | func | handler | branch | whileLoop | forLoop
  deriving DecidableEq, Repr, Inhabited

/-- A variable in scope, and whether it has been read. -/
structure ScopeVar where
  var : Var
  used : Bool
  deriving DecidableEq, Repr, Inhabited

/-- A scope with its variables in order of declaration. No result type means that `return` is not
allowed. -/
structure Scope where
  kind : ScopeKind
  vars : Array ScopeVar := #[]
  result : Option Ty
  deriving Repr, Inhabited

namespace Scope

/-- Whether the scope itself declares `name`. -/
def declares (s : Scope) (name : String) : Bool :=
  s.vars.any (·.var.name == name)

/-- Looks up a variable of the scope and marks it as read. -/
def read? (s : Scope) (name : String) : Option (Var × Scope) :=
  match s.vars.findIdx? (·.var.name == name) with
  | none => none
  | some i =>
    (s.vars[i]?).map fun v =>
      (v.var, { s with vars := s.vars.modify i fun v => { v with used := true } })

/-- The variables that were never read. -/
def unused (s : Scope) : List Var :=
  (s.vars.filter (!·.used)).toList.map (·.var)

end Scope

/-- Open scopes, innermost first. -/
abbrev Scopes := List Scope

namespace Scopes

/-- The result type of a `return` here. -/
def result? : Scopes → Option Ty
  | [] => none
  | s :: _ => s.result

/-- Opens a scope with a result type of its own. -/
def enterWith (ss : Scopes) (kind : ScopeKind) (result : Option Ty) : Scopes :=
  ⟨kind, #[], result⟩ :: ss

/-- Opens a scope that has the result type of the one around it. -/
def enter (ss : Scopes) (kind : ScopeKind) : Scopes :=
  ss.enterWith kind ss.result?

/-- The variables of the innermost scope that were never read. -/
def unused : Scopes → List Var
  | [] => []
  | s :: _ => s.unused

/-- Whether the innermost scope declares `name`. -/
def declares : Scopes → String → Bool
  | [], _ => false
  | s :: _, name => s.declares name

/-- Whether a loop is open. -/
def inLoop (ss : Scopes) : Bool :=
  ss.any fun s => s.kind == .whileLoop || s.kind == .forLoop

/-- Looks up a variable from the innermost scope outwards and marks it as read. -/
def find? : Scopes → String → Option (Var × Scopes)
  | [], _ => none
  | s :: ss, name =>
    match s.read? name with
    | some (v, s) => some (v, s :: ss)
    | none => (find? ss name).map fun (v, ss) => (v, s :: ss)

/-- Looks up a variable to read it. The anonymous variable is never found. -/
def read? (ss : Scopes) (name : String) : Option (Var × Scopes) :=
  if name = "_" then none else ss.find? name

/-- Declares a variable in the innermost scope. The anonymous variable is not kept. -/
def declare (ss : Scopes) (var : Var) (used : Bool) : Scopes :=
  if var.name = "_" then ss
  else
    match ss with
    | [] => []
    | s :: ss => { s with vars := s.vars.push ⟨var, used⟩ } :: ss

end Scopes

end TinyScript
