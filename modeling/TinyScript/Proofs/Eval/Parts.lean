import TinyScript.Proofs.Eval.Runs
import Mathlib.Logic.Relation

/-!
# The parts of a run

While a part of a program runs, other parts run: operands before their operator, the statements of a
block one after the other, the body of a function when it is called. `Point.Enters` says which part
runs next inside a part, and from which machine: the one that is left by all that comes before it.
`Point.Evaluates` follows it down to single expressions.
-/

namespace TinyScript

/-- An evaluation from the machine `σ` has the result `a`, and leaves `σ'`. -/
def Eval.Returns {α : Type} (m : Eval α) (σ : Machine) (a : α) (σ' : Machine) : Prop :=
  m.run.run σ = (.ok a, σ')

/-- The expressions that are evaluated in any case, in order, before anything else is done. -/
def Expr.operands : Expr → List Expr
  | .var .. | .num .. | .str .. | .bool .. => []
  | .array _ _ elems => elems
  | .map _ _ pairs => pairs.map (·.2)
  | .call _ _ args _ => args
  | .index _ left key => [left, key]
  | .unary _ _ e | .binary _ _ _ e _ | .slice _ e _ _ | .dot _ e _ | .group _ e | .assert _ e
  | .any _ e => [e]

/-- What is evaluated in the target of an assignment, in order. -/
def Expr.targetOperands : Expr → List Expr
  | .index _ left key => [left, key]
  | .dot _ left _ => [left]
  | _ => []

/-- The expressions that a statement evaluates first, in order. -/
def Stmt.operands : Stmt → List Expr
  | .typedDecl _ _ _ value | .inferredDecl _ _ _ value | .assign _ _ _ value
  | .ret _ _ (some value) => [value]
  | .call _ _ _ args _ => args
  | _ => []

/-- The loop around a body, which runs with a loop variable, if there is one. -/
structure LoopBody where
  var : Option Var
  body : Block

/-- A round of the loop for the value `v`. -/
def LoopBody.round (l : LoopBody) (invoke : Invoke) (fuel : Nat) (v : Value) : Eval Flow := do
  Eval.bindLoopVar l.var v
  l.body.run invoke fuel

/-- A part of a program that runs, with the values it was given. -/
inductive Part where
  | expr (e : Expr)
  /-- Expressions, one after the other. -/
  | exprs (es : List Expr)
  /-- Expressions, one after the other, each of which has to be a number. -/
  | numbers (es : List Expr)
  | call (name : String) (args : List Value)
  | stmt (s : Stmt)
  | stmts (ss : List Stmt)
  | block (b : Block)
  | branch (b : Branch)
  /-- Branches, up to one whose condition holds. -/
  | branches (bs : List Branch)
  | whileLoop (b : Branch) (fuel : Nat)
  | range (r : Range) (l : LoopBody)
  | round (l : LoopBody) (v : Value)
  | countLoop (l : LoopBody) (stop step : Float) (fuel : Nat) (x : Float)
  | arrayLoop (l : LoopBody) (ref fuel i : Nat)
  | textLoop (l : LoopBody) (cs : List Char)
  | mapLoop (l : LoopBody) (ref : Nat) (keys : List String)

/-- A part that runs with so much fuel from a machine. -/
structure Point where
  fuel : Nat
  part : Part
  machine : Machine

namespace Point

/-- What runs inside expressions and calls. -/
inductive EntersExpr (funcs : List Function) : Point → Point → Prop where
  /-- The operands of an expression. -/
  | operands {n e σ} : EntersExpr funcs ⟨n, .expr e, σ⟩ ⟨n, .exprs e.operands, σ⟩
  /-- The right operand, unless the left one settles the result. -/
  | right {n m op tight left right σ v σ'} (hv : (left.eval (invoke funcs n)).Returns σ v σ')
    (hop : op.settled? v = none) :
    EntersExpr funcs ⟨n, .expr (.binary m op tight left right), σ⟩ ⟨n, .expr right, σ'⟩
  /-- The bounds of a slice. -/
  | bounds {n m left start stop σ v σ'} (hv : (left.eval (invoke funcs n)).Returns σ v σ') :
    EntersExpr funcs ⟨n, .expr (.slice m left start stop), σ⟩
      ⟨n, .numbers (start.toList ++ stop.toList), σ'⟩
  /-- The function of a call, with the values of the arguments. -/
  | callee {n m name args ty σ vs σ'}
    (hvs : (Expr.evalList (invoke funcs n) #[] args).Returns σ vs σ') :
    EntersExpr funcs ⟨n, .expr (.call m name args ty), σ⟩ ⟨n, .call name vs.toList, σ'⟩
  | head {n e es σ} : EntersExpr funcs ⟨n, .exprs (e :: es), σ⟩ ⟨n, .expr e, σ⟩
  | tail {n e es σ v σ'} (hv : (e.eval (invoke funcs n)).Returns σ v σ') :
    EntersExpr funcs ⟨n, .exprs (e :: es), σ⟩ ⟨n, .exprs es, σ'⟩
  | number {n e es σ} : EntersExpr funcs ⟨n, .numbers (e :: es), σ⟩ ⟨n, .expr e, σ⟩
  | nextNumber {n e es σ x σ'} (hx : (e.evalNumber (invoke funcs n)).Returns σ x σ') :
    EntersExpr funcs ⟨n, .numbers (e :: es), σ⟩ ⟨n, .numbers es, σ'⟩
  /-- The body of a declared function, which sees the globals and its parameters. -/
  | body {n name args f σ σ'} (hbuiltin : Builtin.ofName? name = none)
    (hf : funcs.find? (·.signature.name == name) = some f)
    (hbind : (f.signature.bind args).Returns { σ with frames := σ.frames.enterBody } () σ') :
    EntersExpr funcs ⟨n + 1, .call name args, σ⟩ ⟨n, .stmts f.body.stmts, σ'⟩

/-- What runs inside statements, branches and blocks. -/
inductive EntersStmt (funcs : List Function) : Point → Point → Prop where
  /-- The operands of a statement, once it was begun. -/
  | stmtOperands {n s σ σ₁} (htick : Eval.tick.Returns σ () σ₁) :
    EntersStmt funcs ⟨n, .stmt s, σ⟩ ⟨n, .exprs s.operands, σ₁⟩
  /-- The target of an assignment, after the value. -/
  | target {n token comment target value σ σ₁ v σ₂} (htick : Eval.tick.Returns σ () σ₁)
    (hv : (value.eval (invoke funcs n)).Returns σ₁ v σ₂) :
    EntersStmt funcs ⟨n, .stmt (.assign token comment target value), σ⟩
      ⟨n, .exprs target.targetOperands, σ₂⟩
  | stmtCallee {n token comment name args ty σ σ₁ vs σ₂} (htick : Eval.tick.Returns σ () σ₁)
    (hvs : (Expr.evalList (invoke funcs n) #[] args).Returns σ₁ vs σ₂) :
    EntersStmt funcs ⟨n, .stmt (.call token comment name args ty), σ⟩ ⟨n, .call name vs.toList, σ₂⟩
  | firstBranch {n token comment first more last σ σ₁} (htick : Eval.tick.Returns σ () σ₁) :
    EntersStmt funcs ⟨n, .stmt (.cond token comment first more last), σ⟩ ⟨n, .branch first, σ₁⟩
  | moreBranches {n token comment first more last σ σ₁ σ₂} (htick : Eval.tick.Returns σ () σ₁)
    (hfirst : (first.run (invoke funcs n) n).Returns σ₁ none σ₂) :
    EntersStmt funcs ⟨n, .stmt (.cond token comment first more last), σ⟩ ⟨n, .branches more, σ₂⟩
  | lastBlock {n token comment first more last σ σ₁ σ₂ σ₃} (htick : Eval.tick.Returns σ () σ₁)
    (hfirst : (first.run (invoke funcs n) n).Returns σ₁ none σ₂)
    (hmore : (Branch.runFirst (invoke funcs n) n more).Returns σ₂ none σ₃) :
    EntersStmt funcs ⟨n, .stmt (.cond token comment first more (some last)), σ⟩ ⟨n, .block last, σ₃⟩
  | loop {n token branch σ σ₁} (htick : Eval.tick.Returns σ () σ₁) :
    EntersStmt funcs ⟨n, .stmt (.loop token branch), σ⟩ ⟨n, .whileLoop branch n, σ₁⟩
  /-- The range of a `for` loop and its rounds, in the block of the loop variable. -/
  | each {n token comment var range body σ σ₁} (htick : Eval.tick.Returns σ () σ₁) :
    EntersStmt funcs ⟨n, .stmt (.each token comment var range body), σ⟩
      ⟨n, .range range ⟨var, body⟩, { σ₁ with frames := σ₁.frames.nest }⟩
  | stmtHead {n s ss σ} : EntersStmt funcs ⟨n, .stmts (s :: ss), σ⟩ ⟨n, .stmt s, σ⟩
  | stmtTail {n s ss σ σ'} (hs : (s.run (invoke funcs n) n).Returns σ .next σ') :
    EntersStmt funcs ⟨n, .stmts (s :: ss), σ⟩ ⟨n, .stmts ss, σ'⟩
  | block {n token comment stmts σ} : EntersStmt funcs ⟨n, .block (.mk token comment stmts), σ⟩
      ⟨n, .stmts stmts, { σ with frames := σ.frames.nest }⟩
  | test {n token comment test body σ} :
    EntersStmt funcs ⟨n, .branch (.mk token comment test body), σ⟩ ⟨n, .expr test, σ⟩
  | branchBody {n token comment test body σ v σ'}
    (hv : (test.eval (invoke funcs n)).Returns σ v σ') (htrue : v.unwrap = .bool true) :
    EntersStmt funcs ⟨n, .branch (.mk token comment test body), σ⟩ ⟨n, .block body, σ'⟩
  | branchHead {n b bs σ} : EntersStmt funcs ⟨n, .branches (b :: bs), σ⟩ ⟨n, .branch b, σ⟩
  | branchTail {n b bs σ σ'} (hb : (b.run (invoke funcs n) n).Returns σ none σ') :
    EntersStmt funcs ⟨n, .branches (b :: bs), σ⟩ ⟨n, .branches bs, σ'⟩
  | whileRound {n b k σ} : EntersStmt funcs ⟨n, .whileLoop b (k + 1), σ⟩ ⟨n, .branch b, σ⟩
  | whileNext {n b k σ σ'} (hb : (b.run (invoke funcs n) n).Returns σ (some .next) σ') :
    EntersStmt funcs ⟨n, .whileLoop b (k + 1), σ⟩ ⟨n, .whileLoop b k, σ'⟩

/-- What runs inside the loops over a range. -/
inductive EntersLoop (funcs : List Function) : Point → Point → Prop where
  | steps {n start stop stride l σ} : EntersLoop funcs ⟨n, .range (.step start stop stride) l, σ⟩
      ⟨n, .numbers (start.toList ++ stop :: stride.toList), σ⟩
  | counting {n start stop stride l σ x σ₁ last σ₂ step σ₃}
    (hx : (Expr.evalNumberOr (invoke funcs n) 0.0 start).Returns σ x σ₁)
    (hlast : (stop.evalNumber (invoke funcs n)).Returns σ₁ last σ₂)
    (hstep : (Expr.evalNumberOr (invoke funcs n) 1.0 stride).Returns σ₂ step σ₃)
    (hzero : (step == 0.0) = false) :
    EntersLoop funcs ⟨n, .range (.step start stop stride) l, σ⟩ ⟨n, .countLoop l last step n x, σ₃⟩
  | ranged {n e l σ} : EntersLoop funcs ⟨n, .range (.over e) l, σ⟩ ⟨n, .expr e, σ⟩
  | overArray {n e l σ v ref ty σ'} (hv : (e.eval (invoke funcs n)).Returns σ v σ')
    (harray : v.unwrap = .array ref ty) :
    EntersLoop funcs ⟨n, .range (.over e) l, σ⟩ ⟨n, .arrayLoop l ref n 0, σ'⟩
  | overText {n e l σ v s σ'} (hv : (e.eval (invoke funcs n)).Returns σ v σ')
    (htext : v.unwrap = .str s) :
    EntersLoop funcs ⟨n, .range (.over e) l, σ⟩ ⟨n, .textLoop l s.toList, σ'⟩
  | overMap {n e l σ v ref ty σ'} (hv : (e.eval (invoke funcs n)).Returns σ v σ')
    (hmap : v.unwrap = .map ref ty) :
    EntersLoop funcs ⟨n, .range (.over e) l, σ⟩
      ⟨n, .mapLoop l ref (σ'.world.store.map ref).keys, σ'⟩
  /-- The body of a loop, once the loop variable is set. -/
  | roundBody {n l v σ σ'} (hvar : (Eval.bindLoopVar l.var v).Returns σ () σ') :
    EntersLoop funcs ⟨n, .round l v, σ⟩ ⟨n, .block l.body, σ'⟩
  | countRound {n l stop step k x σ} (hx : Eval.inRange x stop step) :
    EntersLoop funcs ⟨n, .countLoop l stop step (k + 1) x, σ⟩ ⟨n, .round l (.num x), σ⟩
  | countNext {n l stop step k x σ σ'} (hx : Eval.inRange x stop step)
    (hround : (l.round (invoke funcs n) n (.num x)).Returns σ .next σ') :
    EntersLoop funcs ⟨n, .countLoop l stop step (k + 1) x, σ⟩ ⟨n, .countLoop l stop step k (x + step), σ'⟩
  | arrayRound {n l ref k i σ v} (hv : (σ.world.store.array ref)[i]? = some v) :
    EntersLoop funcs ⟨n, .arrayLoop l ref (k + 1) i, σ⟩ ⟨n, .round l v, σ⟩
  | arrayNext {n l ref k i σ v σ'} (hv : (σ.world.store.array ref)[i]? = some v)
    (hround : (l.round (invoke funcs n) n v).Returns σ .next σ') :
    EntersLoop funcs ⟨n, .arrayLoop l ref (k + 1) i, σ⟩ ⟨n, .arrayLoop l ref k (i + 1), σ'⟩
  | textRound {n l c cs σ} :
    EntersLoop funcs ⟨n, .textLoop l (c :: cs), σ⟩ ⟨n, .round l (.str (String.singleton c)), σ⟩
  | textNext {n l c cs σ σ'}
    (hround : (l.round (invoke funcs n) n (.str (String.singleton c))).Returns σ .next σ') :
    EntersLoop funcs ⟨n, .textLoop l (c :: cs), σ⟩ ⟨n, .textLoop l cs, σ'⟩
  | mapRound {n l ref key keys σ} (hkey : (σ.world.store.map ref).contains key) :
    EntersLoop funcs ⟨n, .mapLoop l ref (key :: keys), σ⟩ ⟨n, .round l (.str key), σ⟩
  | mapNext {n l ref key keys σ σ'} (hkey : (σ.world.store.map ref).contains key)
    (hround : (l.round (invoke funcs n) n (.str key)).Returns σ .next σ') :
    EntersLoop funcs ⟨n, .mapLoop l ref (key :: keys), σ⟩ ⟨n, .mapLoop l ref keys, σ'⟩
  | mapSkip {n l ref key keys σ} (hkey : (σ.world.store.map ref).contains key = false) :
    EntersLoop funcs ⟨n, .mapLoop l ref (key :: keys), σ⟩ ⟨n, .mapLoop l ref keys, σ⟩

/-- A part that runs inside another one, with nothing between them. -/
inductive Enters (funcs : List Function) (a b : Point) : Prop where
  | expr (h : EntersExpr funcs a b)
  | stmt (h : EntersStmt funcs a b)
  | loop (h : EntersLoop funcs a b)

/-- While the part runs, the expression `e` is evaluated to `v`. -/
def Evaluates (funcs : List Function) (a : Point) (e : Expr) (v : Value) : Prop :=
  ∃ n σ σ', Relation.ReflTransGen (Enters funcs) a ⟨n, .expr e, σ⟩ ∧
    (e.eval (invoke funcs n)).Returns σ v σ'

end Point

end TinyScript
