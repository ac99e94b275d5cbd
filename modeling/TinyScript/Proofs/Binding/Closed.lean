import TinyScript.Proofs.Parsing.Programs

/-!
# Lexically closed programs

What the variables of a syntax tree refer to, without regard to how the tree was read. A declaration
binds its name in the statements after it in its scope, and in the scopes inside them; the parameters of
a body and the variable of a loop bind theirs in the whole body. What is declared around a statement is a
list, the nearest declaration first.
-/

namespace TinyScript

/-- A variable in an expression, with the type that is recorded there. -/
structure Occurrence where
  name : String
  ty : Ty

/-- Whether a declaration binds a name. The anonymous variable binds nothing. -/
def Var.binds (v : Var) (name : String) : Bool :=
  v.name == name && v.name != "_"

/-- Those that no variable of a list binds. -/
def unbound (vars : List Var) (os : List Occurrence) : List Occurrence :=
  os.filter fun o => !vars.any (·.binds o.name)

/-- The nearest declaration of the name has the type that is recorded. -/
def Occurrence.Refers (vars : List Var) (o : Occurrence) : Prop :=
  o.name ≠ "_" ∧ ∃ v, vars.find? (·.name == o.name) = some v ∧ v.ty.same o.ty

/-! ### Occurrences in expressions -/

namespace Expr

mutual

/-- The variables in an expression, in the order in which they are read. -/
def occurrences : Expr → List Occurrence
  | .var m name => [⟨name, m.ty⟩]
  | .num .. | .str .. | .bool .. => []
  | .array _ _ elems => allOccurrences elems
  | .map _ _ pairs => pairOccurrences pairs
  | .call _ _ args _ => allOccurrences args
  | .unary _ _ operand => operand.occurrences
  | .binary _ _ _ left right => left.occurrences ++ right.occurrences
  | .index _ left key => left.occurrences ++ key.occurrences
  | .slice _ left start stop => left.occurrences ++ optionOccurrences start ++ optionOccurrences stop
  | .dot _ left _ => left.occurrences
  | .group _ inner => inner.occurrences
  | .assert _ left => left.occurrences
  | .any _ inner => inner.occurrences

def allOccurrences : List Expr → List Occurrence
  | [] => []
  | e :: es => e.occurrences ++ allOccurrences es

def pairOccurrences : List (String × Expr) → List Occurrence
  | [] => []
  | (_, e) :: ps => e.occurrences ++ pairOccurrences ps

def optionOccurrences : Option Expr → List Occurrence
  | none => []
  | some e => e.occurrences

end

end Expr

def Range.occurrences : Range → List Occurrence
  | .step start stop stride =>
    Expr.optionOccurrences start ++ stop.occurrences ++ Expr.optionOccurrences stride
  | .over e => e.occurrences

/-! ### Declarations in statements -/

/-- The variable that a statement declares in the scope it stands in. -/
def Stmt.declared? : Stmt → Option Var
  | .typedDecl _ _ v _ | .inferredDecl _ _ v _ => some v
  | _ => none

/-- The variables that statements declare in the scope they stand in. -/
def declaredIn (stmts : List Stmt) : List Var :=
  stmts.filterMap Stmt.declared?

mutual

/-- The occurrences in a statement that refer to declarations outside of it. -/
def Stmt.free : Stmt → List Occurrence
  | .empty .. | .brk .. => []
  | .typedDecl _ _ _ value | .inferredDecl _ _ _ value => value.occurrences
  | .assign _ _ target value => target.occurrences ++ value.occurrences
  | .call _ _ _ args _ => Expr.allOccurrences args
  | .ret _ _ value => Expr.optionOccurrences value
  | .cond _ _ first more otherwise =>
    Branch.free first ++ Branch.freeAll more ++ Block.lastFree otherwise
  | .loop _ branch => Branch.free branch
  | .each _ _ var range body => range.occurrences ++ Block.free var.toList body
  | .func _ _ sig body => Block.free (Parsing.allParams sig) body
  | .on _ _ _ params body => Block.free params body

def Branch.free : Branch → List Occurrence
  | .mk _ _ test body => test.occurrences ++ Block.free [] body

def Branch.freeAll : List Branch → List Occurrence
  | [] => []
  | b :: bs => Branch.free b ++ Branch.freeAll bs

def Block.lastFree : Option Block → List Occurrence
  | none => []
  | some b => Block.free [] b

def Block.free (vars : List Var) : Block → List Occurrence
  | .mk _ _ stmts => unbound vars (Stmt.freeAll stmts)

/-- What a statement declares is bound in the statements after it. -/
def Stmt.freeAll : List Stmt → List Occurrence
  | [] => []
  | s :: ss => s.free ++ unbound s.declared?.toList (Stmt.freeAll ss)

end

/-! ### Closed programs -/

/-- The variable has an occurrence in what follows its declaration, unless it is anonymous. -/
def Var.ReadBy (v : Var) (rest : List Occurrence) : Prop :=
  v.name ≠ "_" → ∃ o ∈ rest, v.binds o.name

/-- The declarations of one scope: only anonymous ones share a name, and no name is taken by something
else than a variable of the program. -/
structure Declarable (taken : String → Prop) (vars : List Var) : Prop where
  distinct : vars.Pairwise fun v w => v.name = w.name → v.name = "_"
  untaken : ∀ v ∈ vars, ¬ taken v.name

section
variable (taken : String → Prop)

mutual

/-- Every variable in the statement refers to a declaration around it or in it, and every declaration
in it is read. -/
def Stmt.Closed (around : List Var) : Stmt → Prop
  | .empty .. | .brk .. => True
  | .typedDecl _ _ _ value | .inferredDecl _ _ _ value => ∀ o ∈ value.occurrences, o.Refers around
  | .assign _ _ target value => ∀ o ∈ target.occurrences ++ value.occurrences, o.Refers around
  | .call _ _ _ args _ => ∀ o ∈ Expr.allOccurrences args, o.Refers around
  | .ret _ _ value => ∀ o ∈ Expr.optionOccurrences value, o.Refers around
  | .cond _ _ first more otherwise => Branch.Closed around first ∧ Branch.AllClosed around more ∧
      Block.LastClosed around otherwise
  | .loop _ branch => Branch.Closed around branch
  | .each _ _ var range body => (∀ o ∈ range.occurrences, o.Refers around) ∧
      Block.Closed around var.toList body
  | .func _ _ sig body => Block.Closed around (Parsing.allParams sig) body
  | .on _ _ _ params body => Block.Closed around params body

def Branch.Closed (around : List Var) : Branch → Prop
  | .mk _ _ test body => (∀ o ∈ test.occurrences, o.Refers around) ∧ Block.Closed around [] body

def Branch.AllClosed (around : List Var) : List Branch → Prop
  | [] => True
  | b :: bs => Branch.Closed around b ∧ Branch.AllClosed around bs

def Block.LastClosed (around : List Var) : Option Block → Prop
  | none => True
  | some b => Block.Closed around [] b

/-- A block in a scope that starts with the variables `vars`. -/
def Block.Closed (around vars : List Var) : Block → Prop
  | .mk _ _ stmts => Declarable taken (vars ++ declaredIn stmts) ∧
      (∀ v ∈ vars, v.ReadBy (Stmt.freeAll stmts)) ∧ Stmt.AllClosed (vars.reverse ++ around) stmts

def Stmt.AllClosed (around : List Var) : List Stmt → Prop
  | [] => True
  | s :: ss => Stmt.Closed around s ∧ (∀ v, s.declared? = some v → v.ReadBy (Stmt.freeAll ss)) ∧
      Stmt.AllClosed (s.declared?.toList ++ around) ss

end

end

/-- Whether a name is that of a function or of a variable of the host. -/
def Program.Taken (prelude : Prelude) (p : Program) (name : String) : Prop :=
  prelude.isGlobal name ∨ (prelude.func? name).isSome ∨ ∃ f ∈ p.funcs, f.signature.name = name

/-- A program whose statements are closed in the scope that the host's variables are declared in. Its
functions and handlers are among its statements. -/
structure Program.Closed (prelude : Prelude) (p : Program) : Prop where
  declarable : Declarable (p.Taken prelude) (declaredIn p.stmts)
  stmts : Stmt.AllClosed (p.Taken prelude) prelude.globals p.stmts
  funcs : ∀ f ∈ p.funcs, ∃ token comment, Stmt.func token comment f.signature f.body ∈ p.stmts
  handlers : ∀ h ∈ p.handlers, ∃ token comment, Stmt.on token comment h.name h.params h.body ∈ p.stmts

end TinyScript
