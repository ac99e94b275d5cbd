import TinyScript.Eval.Program
import TinyScript.Proofs.Typing.Values

/-!
# Well-typed programs

What it takes for the types in the tree of a program to be right, in two parts. `Checked` is what
reading a program checks: that operands, conditions, indices and ranges are of the kinds they have to
be, that variables are in scope and `break` is in a loop. `fitted` says that each value has the type
of the place it goes to, up to storage marks: elements have the type of their literal, arrays that of
their sum unless they are empty, values that of the variable, parameter or result they become, and
what goes into a slot of type `any` is settled.
-/

namespace TinyScript

/-- The type of each variable in scope. -/
abbrev Vars := String → Option Ty

/-- The signature of each function that can be called. -/
abbrev Sigs := String → Option Signature

/-- The functions that a program can call. -/
def Program.func? (p : Program) (name : String) : Option Signature :=
  match Builtin.ofName? name with
  | some b => some b.signature
  | none => (p.funcs.find? (·.signature.name == name)).map (·.signature)

/-! ### Operators -/

/-- An operator takes operands of type `l` and `r` and has a result of type `t`. -/
def BinaryOp.Takes (op : BinaryOp) (l r t : Ty) : Prop :=
  match op with
  | .add => l.same .num ∧ r.same .num ∧ t.same .num ∨
      l.same .string ∧ r.same .string ∧ t.same .string ∨
      l.kind = .array ∧ r.kind = .array ∧ t.kind = .array
  | .sub | .mul | .div | .rem => l.same .num ∧ r.same .num ∧ t.same .num
  | .lt | .gt | .ltEq | .gtEq =>
    (l.same .num ∧ r.same .num ∨ l.same .string ∧ r.same .string) ∧ t.same .bool
  | .and | .or => l.same .bool ∧ r.same .bool ∧ t.same .bool
  | .eq | .notEq => t.same .bool

/-- An operator takes an operand of type `t`, and has a result of the same type. -/
def UnaryOp.Takes (op : UnaryOp) (t : Ty) : Prop :=
  match op with
  | .neg => t.same .num
  | .not => t.same .bool

/-- What is of type `l` has something of type `t` at an index of type `k`. -/
def Ty.IndexedBy (l k t : Ty) : Prop :=
  l.kind = .array ∧ k.same .num ∧ t.same l.elem ∨ l.kind = .map ∧ k.same .string ∧ t.same l.elem ∨
    l.kind = .string ∧ k.same .num ∧ t.same .string

/-- A function with this signature can be called with `n` arguments. -/
def Signature.TakesCount (sig : Signature) (n : Nat) : Prop :=
  sig.variadic = none → sig.params.length = n

/-! ### What is checked -/

section
variable (F : Sigs) (V : Vars)

mutual

/-- The parts of an expression are of the kinds they have to be. -/
def Expr.Checked : Expr → Prop
  | .var m name => name ≠ "_" ∧ ∃ τ, V name = some τ ∧ τ.same m.ty
  | .num m _ => m.ty.same .num
  | .str m _ => m.ty.same .string
  | .bool m _ => m.ty.same .bool
  | .array m _ elems => m.ty.same (.array m.ty.elem) ∧ Expr.AllChecked elems
  | .map m _ pairs => m.ty.same (.map m.ty.elem) ∧ Expr.PairsChecked pairs
  | .call m name args _ => (∀ sig, F name = some sig → sig.TakesCount args.length ∧
      m.ty.same sig.result) ∧ Expr.AllChecked args
  | .unary m op operand => op.Takes operand.ty ∧ m.ty.same operand.ty ∧ operand.Checked
  | .binary m op _ left right => op.Takes left.ty right.ty m.ty ∧ left.Checked ∧ right.Checked
  | .index m left key => left.ty.IndexedBy key.ty m.ty ∧ left.Checked ∧ key.Checked
  | .slice m left start stop => (left.ty.kind = .array ∨ left.ty.kind = .string) ∧
      m.ty.same left.ty ∧ left.Checked ∧ Expr.BoundChecked start ∧ Expr.BoundChecked stop
  | .dot m left _ => left.ty.kind = .map ∧ m.ty.same left.ty.elem ∧ left.Checked
  | .group _ inner => inner.Checked
  | .assert m left => left.ty.same .any ∧ m.ty.settled ∧ left.Checked
  | .any m inner => m.ty.same .any ∧ inner.Checked

def Expr.AllChecked : List Expr → Prop
  | [] => True
  | e :: es => e.Checked ∧ Expr.AllChecked es

def Expr.PairsChecked : List (String × Expr) → Prop
  | [] => True
  | (_, e) :: es => e.Checked ∧ Expr.PairsChecked es

/-- A number that can be left out. -/
def Expr.BoundChecked : Option Expr → Prop
  | none => True
  | some e => e.ty.same .num ∧ e.Checked

end

end

/-- More variables can be in scope, and fewer functions can be called. -/
structure Weakens (F F' : Sigs) (V V' : Vars) : Prop where
  funcs : ∀ name sig, F' name = some sig → F name = some sig
  vars : ∀ name τ, V name = some τ → V' name = some τ

section
variable {F F' : Sigs} {V V' : Vars}

mutual

theorem Expr.Checked.mono (hw : Weakens F F' V V') {e : Expr} (h : e.Checked F V) : e.Checked F' V' := by
  match e with
  | .var m name =>
    obtain ⟨hname, τ, hτ, hs⟩ := h
    exact ⟨hname, τ, hw.vars name τ hτ, hs⟩
  | .num .. | .str .. | .bool .. => exact h
  | .array m layout elems => exact ⟨h.1, Expr.AllChecked.mono hw h.2⟩
  | .map m layout pairs => exact ⟨h.1, Expr.PairsChecked.mono hw h.2⟩
  | .call m name args result =>
    exact ⟨fun sig hF => h.1 sig (hw.funcs name sig hF), Expr.AllChecked.mono hw h.2⟩
  | .unary m op operand => exact ⟨h.1, h.2.1, Expr.Checked.mono hw h.2.2⟩
  | .binary m op tight left right =>
    exact ⟨h.1, Expr.Checked.mono hw h.2.1, Expr.Checked.mono hw h.2.2⟩
  | .index m left key => exact ⟨h.1, Expr.Checked.mono hw h.2.1, Expr.Checked.mono hw h.2.2⟩
  | .slice m left start stop =>
    obtain ⟨hk, hs, hl, h₁, h₂⟩ := h
    exact ⟨hk, hs, Expr.Checked.mono hw hl, Expr.BoundChecked.mono hw h₁, Expr.BoundChecked.mono hw h₂⟩
  | .dot m left key => exact ⟨h.1, h.2.1, Expr.Checked.mono hw h.2.2⟩
  | .group m inner => exact Expr.Checked.mono hw (e := inner) h
  | .assert m left => exact ⟨h.1, h.2.1, Expr.Checked.mono hw h.2.2⟩
  | .any m inner => exact ⟨h.1, Expr.Checked.mono hw h.2⟩

theorem Expr.AllChecked.mono (hw : Weakens F F' V V') {es : List Expr} (h : Expr.AllChecked F V es) :
    Expr.AllChecked F' V' es := by
  match es with
  | [] => trivial
  | e :: es => exact ⟨Expr.Checked.mono hw h.1, Expr.AllChecked.mono hw h.2⟩

theorem Expr.PairsChecked.mono (hw : Weakens F F' V V') {ps : List (String × Expr)}
    (h : Expr.PairsChecked F V ps) :
    Expr.PairsChecked F' V' ps := by
  match ps with
  | [] => trivial
  | (k, e) :: ps => exact ⟨Expr.Checked.mono hw h.1, Expr.PairsChecked.mono hw h.2⟩

theorem Expr.BoundChecked.mono (hw : Weakens F F' V V') {e : Option Expr} (h : Expr.BoundChecked F V e) :
    Expr.BoundChecked F' V' e := by
  match e with
  | none => trivial
  | some e => exact ⟨h.1, Expr.Checked.mono hw h.2⟩

end

end

/-- An expression that an assignment can change. -/
def Expr.IsTarget : Expr → Prop
  | .var .. => True
  | .index _ left _ => left.ty.same .string = false
  | .dot .. => True
  | _ => False

/-- A range that a loop variable of type `τ` can run through. -/
def Range.Checked (F : Sigs) (V : Vars) (τ : Option Ty) : Range → Prop
  | .step start stop stride => Expr.BoundChecked F V start ∧ Expr.BoundChecked F V (some stop) ∧
      Expr.BoundChecked F V stride ∧ ∀ t, τ = some t → t.same .num
  | .over e => e.Checked F V ∧ (e.ty.kind = .array ∨
      (e.ty.kind = .string ∨ e.ty.kind = .map) ∧ ∀ t, τ = some t → t.same .string)

/-- Declares a variable in the innermost of the open blocks. -/
def declareIn (L : List Scoping) (var : Var) : List Scoping :=
  match L with
  | [] => []
  | l :: ls => l.declare var.name var.ty :: ls

/-- The open blocks after a statement. -/
def Stmt.scopings (L : List Scoping) : Stmt → List Scoping
  | .typedDecl _ _ var _ | .inferredDecl _ _ var _ => declareIn L var
  | _ => L

/-- The block of a loop variable. -/
def loopScoping : Option Var → Scoping
  | some x => Scoping.declare [] x.name x.ty
  | none => []

section
variable (F : Sigs) (G : Vars) (result : Option Ty)

mutual

/-- The parts of a statement are of the kinds they have to be. It stands in blocks with the variables
`L` and, if `inLoop` holds, in a loop. -/
def Stmt.Checked (L : List Scoping) (inLoop : Bool) : Stmt → Prop
  | .empty .. | .func .. | .on .. => True
  | .typedDecl _ _ var value | .inferredDecl _ _ var value =>
    value.Checked F (varTy? G L) ∧ (L = [] → G var.name = some var.ty)
  | .assign _ _ target value =>
    value.Checked F (varTy? G L) ∧ target.Checked F (varTy? G L) ∧ target.IsTarget
  | .call _ _ name args _ => (∀ sig, F name = some sig → sig.TakesCount args.length) ∧
      Expr.AllChecked F (varTy? G L) args
  | .ret _ _ none => ∃ τ, result = some τ ∧ τ.same .none
  | .ret _ _ (some value) => (∃ τ, result = some τ) ∧ value.Checked F (varTy? G L)
  | .brk .. => inLoop
  | .cond _ _ first more otherwise => Branch.Checked L inLoop first ∧
      Branch.AllChecked L inLoop more ∧ Block.LastChecked L inLoop otherwise
  | .loop _ branch => Branch.Checked L true branch
  | .each _ _ var range body => range.Checked F (varTy? G L) (var.map (·.ty)) ∧
      Block.Checked (loopScoping var :: L) true body

def Branch.Checked (L : List Scoping) (inLoop : Bool) : Branch → Prop
  | .mk _ _ test body => test.Checked F (varTy? G L) ∧ test.ty.same .bool ∧
      Block.Checked L inLoop body

def Branch.AllChecked (L : List Scoping) (inLoop : Bool) : List Branch → Prop
  | [] => True
  | b :: bs => Branch.Checked L inLoop b ∧ Branch.AllChecked L inLoop bs

def Block.LastChecked (L : List Scoping) (inLoop : Bool) : Option Block → Prop
  | none => True
  | some b => Block.Checked L inLoop b

def Block.Checked (L : List Scoping) (inLoop : Bool) : Block → Prop
  | .mk _ _ stmts => Stmt.AllChecked ([] :: L) inLoop stmts

def Stmt.AllChecked (L : List Scoping) (inLoop : Bool) : List Stmt → Prop
  | [] => True
  | s :: ss => Stmt.Checked L inLoop s ∧ Stmt.AllChecked (s.scopings L) inLoop ss

end

end

/-- The block of parameters. -/
def paramsScoping (params : List Var) : Scoping :=
  params.foldl (fun l x => Scoping.declare l x.name x.ty) []

/-- The variables of a function's body at its start. -/
def Signature.scoping (sig : Signature) : Scoping :=
  match sig.variadic with
  | some x => Scoping.declare (paramsScoping sig.params) x.name (.array x.ty)
  | none => paramsScoping sig.params

/-- A function whose body is checked. The parameter that takes any number of arguments is the only
one. If the function has a result, its body does not end without one. -/
structure Function.Checked (F : Sigs) (G : Vars) (f : Function) : Prop where
  params : ∀ x ∈ f.signature.params, x.ty.settled
  variadic : ∀ x, f.signature.variadic = some x → x.ty.settled ∧ f.signature.params = []
  body : Stmt.AllChecked F G (some f.signature.result) [f.signature.scoping] false f.body.stmts
  terminates : f.signature.result.same .none ∨ f.body.terminates

/-- A handler whose body is checked. -/
def Handler.Checked (F : Sigs) (G : Vars) (h : Handler) : Prop :=
  Stmt.AllChecked F G (some .none) [paramsScoping h.params] false h.body.stmts

/-- The globals that tell whether a conversion failed are there. -/
structure NotesErrors (G : Vars) : Prop where
  err : G "err" = some .bool
  errmsg : G "errmsg" = some .string

/-- A program whose parts are checked, with globals `G`. A function that has the name of a built-in
one is never called. -/
structure Program.Checked (G : Vars) (p : Program) : Prop where
  errors : NotesErrors G
  stmts : Stmt.AllChecked p.func? G none [] false p.stmts
  funcs : ∀ f ∈ p.funcs, Builtin.ofName? f.signature.name = none → f.Checked p.func? G
  handlers : ∀ h ∈ p.handlers, h.Checked p.func? G

/-! ### What fits -/

/-- Whether the value is an array without elements whatever happens. -/
def Expr.isEmptyArray : Expr → Bool
  | .array _ _ [] => true
  | .binary _ .add _ left right => left.isEmptyArray && right.isEmptyArray
  | .group _ inner => inner.isEmptyArray
  | _ => false

/-- Whether arrays make a sum of type `t`. An operand of another type has to be empty; the sum takes
its type from the left operand unless that is of an empty type. -/
def Expr.concatFits (left right : Expr) (t : Ty) : Bool :=
  if left.ty.isEmpty then t.same right.ty
  else t.same left.ty && (t.same right.ty || right.ty.isEmpty || right.isEmptyArray)

/-- Whether a parameter takes an argument. -/
def Var.takes (param : Var) (arg : Expr) : Bool :=
  param.ty.same arg.ty || (param.ty.isGeneric && arg.ty.kind == param.ty.kind)

/-- Whether arguments have the types of the parameters. -/
def Signature.argumentsFit (sig : Signature) (args : List Expr) : Bool :=
  match sig.variadic with
  | some x => args.all x.takes
  | none => (sig.params.zip args).all fun (x, e) => x.takes e

section
variable (F : Sigs)

mutual

/-- Whether each value in an expression has the type of the place it goes to. -/
def Expr.fitted : Expr → Bool
  | .var .. | .num .. | .str .. | .bool .. => true
  | .array m _ elems => elems.all (fun e => m.ty.elem.same e.ty && e.ty.kind != .none) &&
      Expr.allFitted elems
  | .map m _ pairs => pairs.all (fun (_, e) => m.ty.elem.same e.ty) && Expr.pairsFitted pairs
  | .call _ name args _ => (F name).all (·.argumentsFit args) && Expr.allFitted args
  | .unary _ _ operand => operand.fitted
  | .binary m op _ left right =>
    (op != .add || left.ty.kind != .array || left.concatFits right m.ty) && left.fitted && right.fitted
  | .index _ left key => left.fitted && key.fitted
  | .slice _ left start stop => left.fitted && Expr.boundFitted start && Expr.boundFitted stop
  | .dot _ left _ => left.fitted
  | .group m inner => m.ty.same inner.ty && inner.fitted
  | .assert _ left => left.fitted
  | .any _ inner => inner.ty.wrappable && inner.fitted

def Expr.allFitted : List Expr → Bool
  | [] => true
  | e :: es => e.fitted && Expr.allFitted es

def Expr.pairsFitted : List (String × Expr) → Bool
  | [] => true
  | (_, e) :: es => e.fitted && Expr.pairsFitted es

def Expr.boundFitted : Option Expr → Bool
  | none => true
  | some e => e.fitted

end

/-- Whether the values of a range have the type of the loop variable. -/
def Range.fitted (τ : Option Ty) : Range → Bool
  | .step start stop stride =>
    Expr.boundFitted F start && stop.fitted F && Expr.boundFitted F stride
  | .over e => e.fitted F &&
      (e.ty.kind != .array || e.ty.isEmpty || τ.all fun t => t.same e.ty.elem)

mutual

/-- Whether each value in a statement has the type of the place it goes to, in a function whose result
is of type `result`. -/
def Stmt.fitted (result : Ty) : Stmt → Bool
  | .empty .. | .func .. | .on .. | .brk .. | .ret _ _ none => true
  | .typedDecl _ _ var value | .inferredDecl _ _ var value =>
    var.ty.same value.ty && value.fitted F
  | .assign _ _ target value => target.ty.same value.ty && value.fitted F && target.fitted F
  | .call _ _ name args _ => (F name).all (·.argumentsFit args) && Expr.allFitted F args
  | .ret _ _ (some value) => result.same value.ty && value.fitted F
  | .cond _ _ first more otherwise => Branch.fitted result first && Branch.allFitted result more &&
      Block.lastFitted result otherwise
  | .loop _ branch => Branch.fitted result branch
  | .each _ _ var range body => range.fitted F (var.map (·.ty)) && Block.fitted result body

def Branch.fitted (result : Ty) : Branch → Bool
  | .mk _ _ test body => test.fitted F && Block.fitted result body

def Branch.allFitted (result : Ty) : List Branch → Bool
  | [] => true
  | b :: bs => Branch.fitted result b && Branch.allFitted result bs

def Block.lastFitted (result : Ty) : Option Block → Bool
  | none => true
  | some b => Block.fitted result b

def Block.fitted (result : Ty) : Block → Bool
  | .mk _ _ stmts => Stmt.allFitted result stmts

def Stmt.allFitted (result : Ty) : List Stmt → Bool
  | [] => true
  | s :: ss => Stmt.fitted result s && Stmt.allFitted result ss

end

end

/-- Whether each value in a program has the type of the place it goes to. -/
def Program.fitted (p : Program) : Bool :=
  Stmt.allFitted p.func? .none p.stmts &&
    p.funcs.all (fun f => Stmt.allFitted p.func? f.signature.result f.body.stmts) &&
    p.handlers.all (fun h => Stmt.allFitted p.func? .none h.body.stmts)

end TinyScript
