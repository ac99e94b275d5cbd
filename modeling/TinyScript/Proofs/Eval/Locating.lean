import TinyScript.Proofs.Eval.Compositional

/-!
# Where failures are located

A failure that leaves a statement has one place, that of a token in the tree, unless it belongs to none
(`Failure.Settled`). On the way there it can still wait for its place (`Failure.Loose`): operators and
built-in functions fail without one. The place comes from the innermost expression or statement around
(`Fails.located`), and what has a place keeps it, so the places of callees are not covered by those of
callers.
-/

namespace TinyScript

/-! ### Tokens of a tree -/

mutual

/-- The tokens that the nodes of an expression are reported at. -/
def Expr.tokens : Expr → List Token
  | .var m _ | .num m _ | .str m _ | .bool m _ => [m.token]
  | .array m _ elems => m.token :: Expr.tokensList elems
  | .map m _ pairs => m.token :: Expr.tokensPairs pairs
  | .call m _ args _ => m.token :: Expr.tokensList args
  | .unary m _ inner | .dot m inner _ | .group m inner | .assert m inner | .any m inner =>
    m.token :: inner.tokens
  | .binary m _ _ left right => m.token :: (left.tokens ++ right.tokens)
  | .index m left key => m.token :: (left.tokens ++ key.tokens)
  | .slice m left start stop => m.token :: (left.tokens ++ (Expr.tokens? start ++ Expr.tokens? stop))

def Expr.tokensList : List Expr → List Token
  | [] => []
  | e :: es => e.tokens ++ Expr.tokensList es

def Expr.tokensPairs : List (String × Expr) → List Token
  | [] => []
  | (_, e) :: es => e.tokens ++ Expr.tokensPairs es

def Expr.tokens? : Option Expr → List Token
  | none => []
  | some e => e.tokens

end

theorem Expr.token_mem_tokens (e : Expr) : e.token ∈ e.tokens := by
  cases e <;> exact List.mem_cons_self

def Range.tokens : Range → List Token
  | .step start stop stride => Expr.tokens? start ++ (stop.tokens ++ Expr.tokens? stride)
  | .over e => e.tokens

mutual

/-- The tokens that the nodes of a statement are reported at. Functions and handlers have theirs in the
program, which runs them from there. -/
def Stmt.tokens : Stmt → List Token
  | .empty token _ | .brk token _ | .func token _ _ _ | .on token _ _ _ _ | .ret token _ none => [token]
  | .typedDecl token _ _ value | .inferredDecl token _ _ value | .ret token _ (some value) =>
    token :: value.tokens
  | .assign token _ target value => token :: (value.tokens ++ target.tokens)
  | .call token _ _ args _ => token :: Expr.tokensList args
  | .cond token _ first more none => token :: (first.tokens ++ Branch.tokensList more)
  | .cond token _ first more (some block) =>
    token :: (first.tokens ++ (Branch.tokensList more ++ block.tokens))
  | .loop token branch => token :: branch.tokens
  | .each token _ _ range body => token :: (range.tokens ++ body.tokens)

def Branch.tokens : Branch → List Token
  | .mk token _ test body => token :: (test.tokens ++ body.tokens)

def Branch.tokensList : List Branch → List Token
  | [] => []
  | b :: bs => b.tokens ++ Branch.tokensList bs

def Block.tokens : Block → List Token
  | .mk _ _ stmts => Stmt.tokensList stmts

def Stmt.tokensList : List Stmt → List Token
  | [] => []
  | s :: ss => s.tokens ++ Stmt.tokensList ss

end

def Handler.tokens (h : Handler) : List Token :=
  h.params.map Var.token ++ h.body.tokens

/-- The tokens that the nodes of a program are reported at. -/
def Program.tokens (p : Program) : List Token :=
  Stmt.tokensList p.stmts ++ (p.funcs.flatMap (·.body.tokens) ++ p.handlers.flatMap Handler.tokens)

/-! ### Failures -/

namespace Failure

/-- A failure that belongs to no place in the source, or has the place of one of the tokens. -/
inductive Settled (tokens : List Token) : Failure → Prop where
  | stopped : Settled tokens ⟨.stopped, none⟩
  | exit (code : Int) : Settled tokens ⟨.exit code, none⟩
  | placed {c : Cause} {token : Token} (hc : c.hasPlace) (htoken : token ∈ tokens) :
    Settled tokens ⟨c, some token.pos⟩

/-- A failure that is settled, or waits for its place. -/
inductive Loose (tokens : List Token) : Failure → Prop where
  | settled {f : Failure} (h : Settled tokens f) : Loose tokens f
  | waiting {c : Cause} (hc : c.hasPlace) : Loose tokens ⟨c, none⟩

variable {tokens : List Token} {f : Failure}

/-- The message of a settled failure is that of its cause, after the place if it has one. -/
theorem Settled.message_eq (h : f.Settled tokens) :
    f.cause.hasPlace = false ∧ f.message = f.cause.message ∨
      ∃ token ∈ tokens, f.message = token.pos.location ++ ": " ++ f.cause.message := by
  cases h with
  | stopped => exact .inl ⟨rfl, rfl⟩
  | exit => exact .inl ⟨rfl, rfl⟩
  | placed _ htoken => exact .inr ⟨_, htoken, rfl⟩

theorem loose_of_ofStep {c : Cause} (hc : c.ofStep) : Loose tokens ⟨c, none⟩ := by
  cases c with
  | parse => cases hc
  | stopped => exact .settled .stopped
  | exit code => exact .settled (.exit code)
  | panic | internal | userPanic => exact .waiting rfl

/-- A settled failure stays as it is. -/
theorem Settled.atToken_eq (h : f.Settled tokens) (token : Token) : f.atToken token = f := by
  cases h <;> rfl

/-- A failure that waits for its place gets it. -/
theorem Loose.atToken (h : f.Loose tokens) {token : Token} (htoken : token ∈ tokens) :
    (f.atToken token).Settled tokens := by
  cases h with
  | settled h => rwa [h.atToken_eq]
  | @waiting c hc =>
    have hplace : (Failure.mk c none).atToken token = ⟨c, some token.pos⟩ := by
      rw [Failure.atToken, hc]
      rfl
    rw [hplace]
    exact .placed hc htoken

end Failure

open Failure (Settled Loose)

/-! ### Evaluations -/

namespace Eval

/-- What an evaluation can fail with. -/
def Fails (A : Failure → Prop) (α : Type) (m : Eval α) : Prop :=
  ∀ σ f σ', m.run.run σ = (.error (.failed f), σ') → A f

namespace Fails
variable {A B : Failure → Prop} {α β : Type} {m : Eval α} {tokens : List Token}

theorem mono (hAB : ∀ f, A f → B f) (h : Fails A α m) : Fails B α m :=
  fun σ f σ' hrun => hAB f (h σ f σ' hrun)

theorem loose (h : Fails (Settled tokens) α m) : Fails (Loose tokens) α m :=
  h.mono fun _ => .settled

/-- An evaluation that does not fail. -/
theorem never (h : ∀ σ f σ', m.run.run σ ≠ (.error (.failed f), σ')) : Fails A α m :=
  fun σ f σ' hrun => absurd hrun (h σ f σ')

theorem pure (a : α) : Fails A α (Pure.pure a) :=
  .never fun _ _ _ => nofun

theorem bind {f : α → Eval β} (hm : Fails A α m) (hf : ∀ a, Fails A β (f a)) : Fails A β (m >>= f) := by
  intro σ e σ' hrun
  rw [run_bind] at hrun
  rcases hr : m.run.run σ with ⟨(e' | _) | a, σ₁⟩ <;> rw [hr] at hrun
  · cases hrun
    exact hm _ _ _ hr
  · cases hrun
  · exact hf a _ _ _ hrun

theorem fail (c : Cause) (hc : A ⟨c, none⟩) : Fails A α (Eval.fail c) := by
  intro σ f σ' hrun
  cases hrun
  exact hc

theorem located {token : Token} (htoken : token ∈ tokens) (hm : Fails (Loose tokens) α m) :
    Fails (Settled tokens) α (Eval.located token m) := by
  intro σ f σ' hrun
  rw [run_located] at hrun
  rcases hr : m.run.run σ with ⟨(f' | _) | a, σ₁⟩ <;> rw [hr] at hrun <;> cases hrun
  exact (hm _ _ _ hr).atToken htoken

theorem nested (hm : Fails A α m) : Fails A α (Eval.nested m) := by
  intro σ f σ' hrun
  rw [run_nested] at hrun
  have hfst : (m.run.run { σ with frames := σ.frames.nest }).1 = .error (.failed f) :=
    congrArg Prod.fst hrun
  exact hm _ f _ (Prod.ext hfst rfl)

theorem inBody (hm : Fails A α m) : Fails A α (Eval.inBody m) := by
  intro σ f σ' hrun
  rw [run_inBody] at hrun
  have hfst : (m.run.run { σ with frames := σ.frames.enterBody }).1 = .error (.failed f) :=
    congrArg Prod.fst hrun
  exact hm _ f _ (Prod.ext hfst rfl)

theorem chaining (A : Failure → Prop) : Chaining (Fails A) where
  pure := .pure
  bind := .bind

/-- The primitive steps fail without a place. -/
theorem sequential (tokens : List Token) : Sequential (Fails (Loose tokens)) where
  toChaining := chaining _
  fail c hc := .fail c (Failure.loose_of_ofStep hc)
  outOfFuel := .never fun _ _ _ => nofun
  store := .never fun _ _ _ => nofun
  replaceElem _ _ _ := .never fun _ _ _ => nofun
  modifyMap _ _ := .never fun _ _ _ => nofun
  newArray _ _ := .never fun _ _ _ => nofun
  newMap _ _ := .never fun _ _ _ => nofun
  noteError _ := .never fun _ _ _ => nofun
  ask _ := .never fun _ _ _ => nofun
  readLine := .never fun _ _ _ => nofun
  randomly _ := .never fun _ _ _ => nofun

theorem lookup (name : String) : Fails (Loose tokens) _ (Eval.lookup name) := by
  intro σ f σ' hrun
  rw [run_lookup] at hrun
  split at hrun
  · cases hrun
  · cases hrun
    exact .waiting rfl

end Fails

/-! ### Expressions -/

section
variable {tokens : List Token} {invoke : Invoke}

mutual

theorem fails_eval (hinvoke : ∀ name args, Fails (Loose tokens) _ (invoke name args)) (e : Expr)
    (he : e.tokens ⊆ tokens) : Fails (Settled tokens) _ (e.eval invoke) := by
  have hP := Fails.sequential tokens
  match e with
  | .num .. | .str .. | .bool .. => exact .pure _
  | .var m name => exact .located (List.cons_subset.1 he).1 (.lookup name)
  | .array m layout elems =>
    obtain ⟨htoken, helems⟩ := List.cons_subset.1 he
    exact .located htoken (.bind (fails_evalList hinvoke elems helems #[]).loose fun _ => hP.newArray _ _)
  | .map m layout pairs =>
    obtain ⟨htoken, hpairs⟩ := List.cons_subset.1 he
    exact .located htoken (.bind (fails_evalPairs hinvoke pairs hpairs .empty).loose fun _ => hP.newMap _ _)
  | .call m name args result =>
    obtain ⟨htoken, hargs⟩ := List.cons_subset.1 he
    exact .located htoken (.bind (fails_evalList hinvoke args hargs #[]).loose fun _ => hinvoke _ _)
  | .unary m op operand =>
    obtain ⟨htoken, hoperand⟩ := List.cons_subset.1 he
    exact .located htoken (.bind (fails_eval hinvoke operand hoperand).loose fun _ => hP.unaryOp _ _)
  | .binary m op tight left right =>
    obtain ⟨htoken, hboth⟩ := List.cons_subset.1 he
    obtain ⟨hleft, hright⟩ := List.append_subset.1 hboth
    refine .located htoken (.bind (fails_eval hinvoke left hleft).loose fun v => ?_)
    split
    · exact .pure _
    · exact .bind (fails_eval hinvoke right hright).loose fun _ => hP.binaryOp _ _ _
  | .index m left key =>
    obtain ⟨htoken, hboth⟩ := List.cons_subset.1 he
    obtain ⟨hleft, hkey⟩ := List.append_subset.1 hboth
    exact .located htoken (.bind (fails_eval hinvoke left hleft).loose fun _ =>
      .bind (fails_eval hinvoke key hkey).loose fun _ => hP.elementAt _ _)
  | .slice m left start stop =>
    obtain ⟨htoken, hall⟩ := List.cons_subset.1 he
    obtain ⟨hleft, hbounds⟩ := List.append_subset.1 hall
    obtain ⟨hstart, hstop⟩ := List.append_subset.1 hbounds
    exact .located htoken (.bind (fails_eval hinvoke left hleft).loose fun _ =>
      .bind (fails_evalNumber? hinvoke start hstart).loose fun _ =>
        .bind (fails_evalNumber? hinvoke stop hstop).loose fun _ => hP.slice _ _ _)
  | .dot m left key =>
    obtain ⟨htoken, hleft⟩ := List.cons_subset.1 he
    exact .located htoken (.bind (fails_eval hinvoke left hleft).loose fun _ => hP.field _ _)
  | .group m inner =>
    obtain ⟨htoken, hinner⟩ := List.cons_subset.1 he
    exact .located htoken (fails_eval hinvoke inner hinner).loose
  | .assert m left =>
    obtain ⟨htoken, hleft⟩ := List.cons_subset.1 he
    exact .located htoken (.bind (fails_eval hinvoke left hleft).loose fun _ => hP.asserted _ _)
  | .any m inner =>
    obtain ⟨htoken, hinner⟩ := List.cons_subset.1 he
    exact .located htoken (.bind (fails_eval hinvoke inner hinner).loose fun _ => .pure _)

theorem fails_evalList (hinvoke : ∀ name args, Fails (Loose tokens) _ (invoke name args)) (es : List Expr)
    (hes : Expr.tokensList es ⊆ tokens) (done : Array Value) :
    Fails (Settled tokens) _ (Expr.evalList invoke done es) := by
  match es with
  | [] => exact .pure _
  | e :: es =>
    obtain ⟨he, hrest⟩ := List.append_subset.1 hes
    exact .bind (fails_eval hinvoke e he) fun _ => fails_evalList hinvoke es hrest _

theorem fails_evalPairs (hinvoke : ∀ name args, Fails (Loose tokens) _ (invoke name args))
    (es : List (String × Expr)) (hes : Expr.tokensPairs es ⊆ tokens)
    (done : Pairs Value) : Fails (Settled tokens) _ (Expr.evalPairs invoke done es) := by
  match es with
  | [] => exact .pure _
  | (key, e) :: es =>
    obtain ⟨he, hrest⟩ := List.append_subset.1 hes
    exact .bind (fails_eval hinvoke e he) fun _ => fails_evalPairs hinvoke es hrest _

theorem fails_evalNumber? (hinvoke : ∀ name args, Fails (Loose tokens) _ (invoke name args))
    (e : Option Expr) (he : Expr.tokens? e ⊆ tokens) :
    Fails (Settled tokens) _ (Expr.evalNumber? invoke e) := by
  have hP := Fails.sequential tokens
  match e with
  | none => exact .pure _
  | some e =>
    exact .bind (fails_eval hinvoke e he) fun _ =>
      .bind (.located (he e.token_mem_tokens) (hP.number _)) fun _ => .pure _

end

variable (hinvoke : ∀ name args, Fails (Loose tokens) _ (invoke name args))
include hinvoke

theorem fails_evalNumber (e : Expr) (he : e.tokens ⊆ tokens) :
    Fails (Settled tokens) _ (e.evalNumber invoke) :=
  .bind (fails_eval hinvoke e he) fun _ =>
    .located (he e.token_mem_tokens) ((Fails.sequential tokens).number _)

theorem fails_evalNumberOr (e : Option Expr) (he : Expr.tokens? e ⊆ tokens) (missing : Float) :
    Fails (Settled tokens) _ (Expr.evalNumberOr invoke missing e) := by
  cases e with
  | some e => exact fails_evalNumber hinvoke e he
  | none => exact .pure _

/-! ### Statements -/

/-- An assignment leaves its place to the statement, but for indices out of range. -/
theorem fails_assign (target : Expr) (htarget : target.tokens ⊆ tokens) (v : Value) :
    Fails (Loose tokens) _ (target.assign invoke v) := by
  have hP := Fails.sequential tokens
  cases target with
  | var m name =>
    intro σ f σ' hrun
    rw [Expr.assign, run_assign] at hrun
    split at hrun
    · cases hrun
    · cases hrun
      exact .waiting rfl
  | index m left key =>
    obtain ⟨htoken, hboth⟩ := List.cons_subset.1 htarget
    obtain ⟨hleft, hkey⟩ := List.append_subset.1 hboth
    refine .bind (fails_eval hinvoke left hleft).loose fun l =>
      .bind (fails_eval hinvoke key hkey).loose fun k => ?_
    split
    · exact (Fails.located htoken (hP.setElem _ _ _)).loose
    · exact hP.setField _ _ _
    · exact hP.internal _ rfl
  | dot m left key =>
    obtain ⟨htoken, hleft⟩ := List.cons_subset.1 htarget
    refine .bind (fails_eval hinvoke left hleft).loose fun l => ?_
    split
    · exact hP.setField _ _ _
    · exact hP.internal _ rfl
  | num | str | bool | array | map | call | unary | binary | slice | group | assert | any =>
    exact hP.internal _ rfl

theorem fails_range (fuel : Nat) (range : Range) (hrange : range.tokens ⊆ tokens)
    {round : Value → Eval Flow} (hround : ∀ v, Fails (Loose tokens) _ (round v)) :
    Fails (Loose tokens) _ (range.run invoke fuel round) := by
  have hP := Fails.sequential tokens
  match range with
  | .step start stop stride =>
    obtain ⟨hstart, hrest⟩ := List.append_subset.1 hrange
    obtain ⟨hstop, hstride⟩ := List.append_subset.1 hrest
    rw [Range.run_step]
    refine .bind (fails_evalNumberOr hinvoke start hstart _).loose fun x =>
      .bind (fails_evalNumber hinvoke stop hstop).loose fun last =>
        .bind (fails_evalNumberOr hinvoke stride hstride _).loose fun step => ?_
    split
    · exact (Fails.located (hstop stop.token_mem_tokens) (hP.fail _ rfl)).loose
    · exact hP.countLoop hround _ _ _ _
  | .over e =>
    refine .bind (fails_eval hinvoke e hrange).loose fun v => ?_
    split
    · exact hP.arrayLoop hround _ _ _
    · exact hP.textLoop hround _
    · exact .bind hP.store fun _ => hP.mapLoop hround _ _
    · exact (Fails.located (hrange e.token_mem_tokens) (hP.internal _ rfl)).loose

end

section
variable {tokens : List Token} {token : Token}

theorem fails_tick : Fails (Settled tokens) _ tick := by
  intro σ f σ' hrun
  rw [run_tick] at hrun
  split at hrun <;> cases hrun
  exact .stopped

/-- A statement gives all failures their place that still wait for it. -/
theorem fails_statement (htoken : token ∈ tokens) {m : Eval Flow} (hm : Fails (Loose tokens) _ m) :
    Fails (Settled tokens) _ (statement token m) :=
  .bind fails_tick fun _ => .located htoken hm

theorem fails_condition (htoken : token ∈ tokens) (v : Value) :
    Fails (Settled tokens) _ (condition token v) := by
  unfold condition
  split
  · exact .pure _
  · exact .located htoken ((Fails.sequential tokens).internal _ rfl)

theorem fails_modifyFrames {A : Failure → Prop} (f : Frames → Frames) : Fails A _ (modifyFrames f) :=
  .never fun _ _ _ => nofun

theorem fails_bindLoopVar {A : Failure → Prop} (var : Option Var) (v : Value) :
    Fails A _ (bindLoopVar var v) := by
  cases var with
  | some x => exact fails_modifyFrames (·.insert x.name v)
  | none => exact .pure _

end

section
variable {tokens : List Token} {invoke : Invoke} (fuel : Nat)

mutual

theorem fails_run (hinvoke : ∀ name args, Fails (Loose tokens) _ (invoke name args)) (s : Stmt)
    (hs : s.tokens ⊆ tokens) : Fails (Settled tokens) _ (s.run invoke fuel) := by
  have hP := Fails.sequential tokens
  match s with
  | .empty .. | .func .. | .on .. | .brk .. | .ret _ _ none =>
    exact fails_statement (List.cons_subset.1 hs).1 (.pure _)
  | .typedDecl token comment var value | .inferredDecl token comment var value =>
    obtain ⟨htoken, hvalue⟩ := List.cons_subset.1 hs
    exact fails_statement htoken (.bind (fails_eval hinvoke value hvalue).loose fun _ =>
      .bind (fails_modifyFrames _) fun _ => .pure _)
  | .assign token comment target value =>
    obtain ⟨htoken, hboth⟩ := List.cons_subset.1 hs
    obtain ⟨hvalue, htarget⟩ := List.append_subset.1 hboth
    exact fails_statement htoken (.bind (fails_eval hinvoke value hvalue).loose fun _ =>
      .bind (fails_assign hinvoke target htarget _) fun _ => .pure _)
  | .call token comment name args ty =>
    obtain ⟨htoken, hargs⟩ := List.cons_subset.1 hs
    exact fails_statement htoken (.bind (fails_evalList hinvoke args hargs #[]).loose fun _ =>
      .bind (hinvoke _ _) fun _ => .pure _)
  | .ret token comment (some value) =>
    obtain ⟨htoken, hvalue⟩ := List.cons_subset.1 hs
    exact fails_statement htoken (.bind (fails_eval hinvoke value hvalue).loose fun _ => .pure _)
  | .cond token comment first more none =>
    obtain ⟨htoken, hboth⟩ := List.cons_subset.1 hs
    obtain ⟨hfirst, hmore⟩ := List.append_subset.1 hboth
    exact fails_statement htoken (hP.orElse (fails_branch hinvoke first hfirst).loose
      (hP.orElse (fails_branches hinvoke more hmore).loose (.pure _)))
  | .cond token comment first more (some b) =>
    obtain ⟨htoken, hall⟩ := List.cons_subset.1 hs
    obtain ⟨hfirst, hrest⟩ := List.append_subset.1 hall
    obtain ⟨hmore, hb⟩ := List.append_subset.1 hrest
    exact fails_statement htoken (hP.orElse (fails_branch hinvoke first hfirst).loose
      (hP.orElse (fails_branches hinvoke more hmore).loose (fails_block hinvoke b hb).loose))
  | .loop token b =>
    obtain ⟨htoken, hb⟩ := List.cons_subset.1 hs
    exact fails_statement htoken (hP.whileLoop (fails_branch hinvoke b hb).loose fuel)
  | .each token comment var range body =>
    obtain ⟨htoken, hboth⟩ := List.cons_subset.1 hs
    obtain ⟨hrange, hbody⟩ := List.append_subset.1 hboth
    exact fails_statement htoken (.nested (fails_range hinvoke fuel range hrange fun v =>
      .bind (fails_bindLoopVar var v) fun _ => (fails_block hinvoke body hbody).loose))

theorem fails_branch (hinvoke : ∀ name args, Fails (Loose tokens) _ (invoke name args)) (b : Branch)
    (hb : b.tokens ⊆ tokens) :
    Fails (Settled tokens) _ (b.run invoke fuel) := by
  match b with
  | .mk token comment test body =>
    obtain ⟨htoken, hboth⟩ := List.cons_subset.1 hb
    obtain ⟨htest, hbody⟩ := List.append_subset.1 hboth
    refine .bind (fails_eval hinvoke test htest) fun v =>
      .bind (fails_condition htoken v) fun holds => ?_
    split
    · exact .bind (fails_block hinvoke body hbody) fun _ => .pure _
    · exact .pure _

theorem fails_branches (hinvoke : ∀ name args, Fails (Loose tokens) _ (invoke name args))
    (bs : List Branch) (hbs : Branch.tokensList bs ⊆ tokens) :
    Fails (Settled tokens) _ (Branch.runFirst invoke fuel bs) := by
  match bs with
  | [] => exact .pure _
  | b :: bs =>
    obtain ⟨hb, hrest⟩ := List.append_subset.1 hbs
    refine .bind (fails_branch hinvoke b hb) fun o => ?_
    cases o with
    | some flow => exact .pure _
    | none => exact fails_branches hinvoke bs hrest

theorem fails_block (hinvoke : ∀ name args, Fails (Loose tokens) _ (invoke name args)) (b : Block)
    (hb : b.tokens ⊆ tokens) :
    Fails (Settled tokens) _ (b.run invoke fuel) := by
  match b with
  | .mk token comment stmts => exact .nested (fails_runAll hinvoke stmts hb)

theorem fails_runAll (hinvoke : ∀ name args, Fails (Loose tokens) _ (invoke name args)) (ss : List Stmt)
    (hss : Stmt.tokensList ss ⊆ tokens) :
    Fails (Settled tokens) _ (Stmt.runAll invoke fuel ss) := by
  match ss with
  | [] => exact .pure _
  | s :: ss =>
    obtain ⟨hs, hrest⟩ := List.append_subset.1 hss
    refine .bind (fails_run hinvoke s hs) fun flow => ?_
    cases flow with
    | next => exact fails_runAll hinvoke ss hrest
    | ret v => exact .pure _
    | brk => exact .pure _

end

variable (hinvoke : ∀ name args, Fails (Loose tokens) _ (invoke name args))
include hinvoke

theorem fails_body (b : Block) (hb : b.tokens ⊆ tokens) :
    Fails (Settled tokens) _ (Stmt.runAll invoke fuel b.stmts) := by
  cases b with
  | mk token comment stmts => exact fails_runAll fuel hinvoke stmts hb

/-! ### Calls and runs -/

theorem fails_call (f : Function) (hf : f.body.tokens ⊆ tokens) (args : List Value) :
    Fails (Settled tokens) _ (f.call invoke fuel args) := by
  have hbind : Fails (Settled tokens) _ (f.signature.bind args) :=
    (Fails.chaining _).bindParams (fun _ _ => fails_modifyFrames _) (fun _ _ => .never fun _ _ _ => nofun)
      f.signature args
  refine .inBody (.bind hbind fun _ => .bind (fails_body fuel hinvoke f.body hf) fun flow => ?_)
  split <;> exact .pure _

end

/-- Calls leave the places of the failures of built-in functions to the caller. By induction on the depth
of calls. -/
theorem fails_invoke {tokens : List Token} (funcs : List Function)
    (hfuncs : ∀ f ∈ funcs, f.body.tokens ⊆ tokens) (fuel : Nat) (name : String) (args : List Value) :
    Fails (Loose tokens) _ (invoke funcs fuel name args) := by
  have hP := Fails.sequential tokens
  induction fuel generalizing name args with
  | zero =>
    unfold invoke
    split
    · exact hP.builtin args _
    · split
      · exact Fails.fail _ (.waiting rfl)
      · exact hP.outOfFuel
  | succ fuel ih =>
    unfold invoke
    split
    · exact hP.builtin args _
    · split
      · exact Fails.fail _ (.waiting rfl)
      · next f hf => exact (fails_call fuel ih f (hfuncs f (List.mem_of_find?_eq_some hf)) args).loose

end Eval

open Eval

/-- Whatever state it starts in, a run of a program, a call of a function and the handling of an event end
with one place for a failure, that of a token in the tree, unless the failure belongs to none. -/
theorem Program.fails_settled (p : Program) (fuel : Nat) :
    Fails (Settled p.tokens) _ (p.run fuel) ∧
    (∀ f ∈ p.funcs, ∀ args, Fails (Settled p.tokens) _ (f.call (invoke p.funcs fuel) fuel args)) ∧
    ∀ h ∈ p.handlers, ∀ params, Fails (Settled p.tokens) _ (h.run p.funcs fuel params) := by
  have hfuncs : ∀ f ∈ p.funcs, f.body.tokens ⊆ p.tokens := fun f hf token htoken =>
    List.mem_append_right _ (List.mem_append_left _ (List.mem_flatMap.2 ⟨f, hf, htoken⟩))
  have hinvoke := fails_invoke p.funcs hfuncs fuel
  refine ⟨?_, fun f hf args => fails_call fuel hinvoke f (hfuncs f hf) args, fun h hh params => ?_⟩
  · exact .bind (fails_runAll fuel hinvoke p.stmts (List.subset_append_left _ _)) fun _ => .pure _
  · have htokens : h.tokens ⊆ p.tokens := fun token htoken =>
      List.mem_append_right _ (List.mem_append_right _ (List.mem_flatMap.2 ⟨h, hh, htoken⟩))
    obtain ⟨hparams, hbody⟩ := List.append_subset.1 htokens
    have hbind : Fails (Settled p.tokens) _ (h.bind params) :=
      (Fails.chaining _).bindEventParams (fun _ _ => fails_modifyFrames _) h params fun x hx _ =>
        .located (hparams (List.mem_map_of_mem hx)) (.fail _ (.waiting rfl))
    exact .inBody (.bind hbind fun _ => .bind (fails_body fuel hinvoke h.body hbody) fun _ => .pure _)

/-- The failure that an evaluation from `σ` ends in. -/
def Eval.failure? {α : Type} (m : Eval α) (σ : Machine) : Option Failure :=
  match (m.run.run σ).1 with
  | .error (.failed f) => some f
  | _ => none

theorem Eval.Fails.of_failure? {A : Failure → Prop} {α : Type} {m : Eval α} {σ : Machine} {f : Failure}
    (h : Fails A α m) (hf : failure? m σ = some f) : A f := by
  rcases hr : m.run.run σ with ⟨(f' | _) | a, σ'⟩ <;> rw [failure?, hr] at hf <;> cases hf
  exact h _ _ _ hr

/-- A program with a function that panics and a handler that takes a text. -/
def failingSource : String :=
  "func f\n    panic \"no\"\nend\non key k:string\n    print k\nend\nf\n"

/-- Whether a failure has the message. -/
def Failure.reads (text : String) (f : Failure) : Bool :=
  f.message == text

/-- Both fail at their tokens, the handler because it is given no text. -/
theorem failingSource_settled : ∃ p, Program.parse failingSource .standard = .ok p ∧
    (∃ f ∈ p.funcs, ∃ e, failure? (f.call (invoke p.funcs 1) 1 []) {} = some e ∧
      e.reads "line 2 column 5: no" ∧ e.Settled p.tokens) ∧
    ∃ h ∈ p.handlers, ∃ e, failure? (h.run p.funcs 1 [.bool true]) {} = some e ∧
      e.reads "line 4 column 8: panic: error converting any to type: expected string, found bool" ∧
      e.Settled p.tokens := by
  have hparse : (match Program.parse failingSource .standard with
      | .ok p =>
        (p.funcs.any fun f => (failure? (f.call (invoke p.funcs 1) 1 []) {}).any
          (Failure.reads "line 2 column 5: no")) &&
        p.handlers.any fun h => (failure? (h.run p.funcs 1 [.bool true]) {}).any
          (Failure.reads "line 4 column 8: panic: error converting any to type: expected string, found bool")
      | .error _ => false) = true := by
    decide +kernel
  cases hp : Program.parse failingSource .standard with
  | error problems => rw [hp] at hparse; cases hparse
  | ok p =>
    rw [hp] at hparse
    obtain ⟨hfuncs, hhandlers⟩ := Bool.and_eq_true_iff.1 hparse
    obtain ⟨f, hf, hcall⟩ := List.any_eq_true.1 hfuncs
    obtain ⟨e, he, hreads⟩ := (Option.any_eq_true _ _).1 hcall
    obtain ⟨h, hh, hhandle⟩ := List.any_eq_true.1 hhandlers
    obtain ⟨e', he', hreads'⟩ := (Option.any_eq_true _ _).1 hhandle
    obtain ⟨-, hcalls, hhandles⟩ := p.fails_settled 1
    exact ⟨p, rfl, ⟨f, hf, e, he, hreads, (hcalls f hf []).of_failure? he⟩,
      h, hh, e', he', hreads', (hhandles h hh _).of_failure? he'⟩

end TinyScript
