import TinyScript.Proofs.Parsing.Precedence
import TinyScript.Proofs.Parsing.Programs
import TinyScript.Proofs.Parsing.ScopeBalance

/-!
# The expressions of a program

Every expression that a program is written with is layered, and reading it from left to right gives the
words of consecutive tokens of the source (`expressions_layered`). Blocks that are kept apart as functions
and handlers are in the state of the parser, so that state carries the invariant (`State.Transcribing`).
-/

namespace TinyScript

/-! ### The expressions of statements -/

def Range.Each (P : Expr → Prop) : Range → Prop
  | .step start stop stride => (∀ e, start = some e → P e) ∧ P stop ∧ ∀ e, stride = some e → P e
  | .over e => P e

mutual

/-- `P` holds for every expression that the statement is written with. A call stands for the expression
that it would be inside another one; the value of a variable declared without one is not written. -/
def Stmt.Each (P : Expr → Prop) : Stmt → Prop
  | .empty .. | .brk .. | .typedDecl .. => True
  | .inferredDecl _ _ _ value => P value
  | .assign _ _ target value => P target ∧ P value
  | .call token _ name args result => P (.call ⟨token, result.fixed⟩ name args result)
  | .ret _ _ value => ∀ e, value = some e → P e
  | .cond _ _ first more otherwise => first.Each P ∧ Branch.EachOf P more ∧ Block.EachLast P otherwise
  | .loop _ branch => branch.Each P
  | .each _ _ _ range body => range.Each P ∧ body.Each P
  | .func _ _ _ body => body.Each P
  | .on _ _ _ _ body => body.Each P

def Branch.Each (P : Expr → Prop) : Branch → Prop
  | .mk _ _ condition body => P condition ∧ body.Each P

def Branch.EachOf (P : Expr → Prop) : List Branch → Prop
  | [] => True
  | b :: bs => b.Each P ∧ Branch.EachOf P bs

def Block.EachLast (P : Expr → Prop) : Option Block → Prop
  | none => True
  | some body => body.Each P

def Block.Each (P : Expr → Prop) : Block → Prop
  | .mk _ _ stmts => Stmt.EachOf P stmts

def Stmt.EachOf (P : Expr → Prop) : List Stmt → Prop
  | [] => True
  | stmt :: stmts => stmt.Each P ∧ Stmt.EachOf P stmts

end

section
variable {P : Expr → Prop}

theorem Stmt.eachOf_iff {stmts : List Stmt} : EachOf P stmts ↔ ∀ stmt ∈ stmts, stmt.Each P := by
  induction stmts with
  | nil => exact ⟨fun _ => nofun, fun _ => trivial⟩
  | cons stmt stmts ih =>
    rw [List.forall_mem_cons, ← ih]
    exact Iff.rfl

theorem Branch.eachOf_iff {branches : List Branch} : EachOf P branches ↔ ∀ b ∈ branches, b.Each P := by
  induction branches with
  | nil => exact ⟨fun _ => nofun, fun _ => trivial⟩
  | cons b branches ih =>
    rw [List.forall_mem_cons, ← ih]
    exact Iff.rfl

theorem Stmt.each_push {done : Array Stmt} {stmt : Stmt} (hdone : ∀ stmt ∈ done, stmt.Each P)
    (hstmt : stmt.Each P) : ∀ stmt' ∈ done.push stmt, stmt'.Each P := by
  intro stmt' hmem
  rcases Array.mem_push.1 hmem with hmem | rfl
  · exact hdone stmt' hmem
  · exact hstmt

theorem Block.Each.withComment {body : Block} (h : body.Each P) (comment : Option String) :
    (body.withComment comment).Each P := by
  obtain ⟨token, _, stmts⟩ := body
  exact h

end

structure Program.Each (P : Expr → Prop) (p : Program) : Prop where
  stmts : ∀ stmt ∈ p.stmts, stmt.Each P
  funcs : ∀ f ∈ p.funcs, f.body.Each P
  handlers : ∀ h ∈ p.handlers, h.body.Each P

/-- An expression is layered, and written with the words of consecutive tokens. -/
structure Expr.Transcribes (tokens : Array Token) (e : Expr) : Prop where
  layered : e.Layered
  words : ∃ i j, i ≤ j ∧ j ≤ tokens.size ∧ e.words = (tokens.extract i j).toList.filterMap Token.word?

theorem Expr.Transcribes.retell {tokens : Array Token} {e f : Expr} (h : e.Transcribes tokens)
    (hf : e.Retells f) : f.Transcribes tokens :=
  ⟨hf.layered h.layered, by rw [hf.words]; exact h.words⟩

namespace Parsing

/-- The parser reads the given tokens, and what has been declared is written with them. -/
structure State.Transcribing (tokens : Array Token) (s : State) : Prop extends Lexed s where
  input : s.tokens = tokens
  declared : ∀ f ∈ s.declared, f.body.Each (Expr.Transcribes tokens)
  handlers : ∀ h ∈ s.handlers, h.body.Each (Expr.Transcribes tokens)

section
variable {α β γ : Type} {tokens : Array Token} {s t : State} {A : α → Prop} {B : β → Prop}

theorem State.Transcribing.passes (hs : s.Transcribing tokens) (h : s.Passes t) : t.Transcribing tokens where
  toLexed := h.lexed
  input := h.input.tokens.trans hs.input
  declared := by rw [h.declared]; exact hs.declared
  handlers := by rw [h.handlers]; exact hs.handlers

theorem Tells.transcribes {e : Expr} (h : Tells e (s.wordsTo t)) (hs : s.Transcribing tokens) (ht : s.Passes t) :
    e.Transcribes tokens where
  layered := h.layered
  words := by
    have hbound : t.pos ≤ tokens.size := by
      rw [← hs.input, ← ht.input.tokens]
      exact ht.lexed.pos_le
    exact ⟨s.pos, t.pos, ht.leads.mono, hbound, by rw [h.words, State.wordsTo, hs.input]⟩

/-! ### Parsers with transcribed results -/

/-- From a state the parser goes on reading the same tokens, and its result is in `A`. -/
def YieldsFrom (tokens : Array Token) (s : State) (m : Parse α) (A : α → Prop) : Prop :=
  s.Transcribing tokens → (m.run s).2.Transcribing tokens ∧ A (m.run s).1

/-- The same from every state. -/
def Yields (tokens : Array Token) (m : Parse α) (A : α → Prop) : Prop :=
  ∀ s : State, YieldsFrom tokens s m A

/-- The same of an attempt, if it has a result. -/
abbrev YieldsTry (tokens : Array Token) (m : Attempt α) (A : α → Prop) : Prop :=
  Yields tokens m.run fun r => ∀ a, r = some a → A a

namespace Yields
variable {m : Parse α}

theorem pure {a : α} (h : A a) : Yields tokens (pure a) A := fun _ hs => ⟨hs, h⟩

theorem bind {f : α → Parse β} (hm : Yields tokens m A) (hf : ∀ a, A a → Yields tokens (f a) B) :
    Yields tokens (m >>= f) B := fun s hs =>
  hf _ (hm s hs).2 _ (hm s hs).1

/-- What is read on the way does not matter to what follows. -/
theorem andThen {f : α → Parse β} (hm : Yields tokens m A) (hf : ∀ a, Yields tokens (f a) B) :
    Yields tokens (m >>= f) B :=
  hm.bind fun a _ => hf a

theorem ite {c : Prop} [Decidable c] {m n : Parse α} (hm : c → Yields tokens m A)
    (hn : ¬ c → Yields tokens n A) : Yields tokens (if c then m else n) A := by
  split
  · next h => exact hm h
  · next h => exact hn h

theorem look {g : State → γ} {f : γ → Parse β} (hf : ∀ c, Yields tokens (f c) B) :
    Yields tokens ((do return g (← get)) >>= f) B :=
  fun s hs => hf (g s) s hs

theorem get {f : State → Parse β} (hf : ∀ s, s.Transcribing tokens → Yields tokens (f s) B) :
    Yields tokens (MonadState.get >>= f) B :=
  fun s hs => hf s hs s hs

/-- A parser that neither declares a function nor leaves the tokens. -/
theorem ofPasses (hm : ∀ s : State, s.Lexed → s.Passes (m.run s).2) : Yields tokens m fun _ => True :=
  fun s hs => ⟨hs.passes (hm s hs.toLexed), trivial⟩

theorem advance : Yields tokens Parsing.advance fun _ => True := ofPasses fun _ hs => hs.passes_advance

theorem nextLine : Yields tokens Parsing.nextLine fun _ => True :=
  ofPasses fun s hs => hs.passesAlike s.alike_nextLine (State.leads_nextLine hs.toInRange)

theorem reportAt (token : Token) (problem : Problem) : Yields tokens (reportAt token problem) fun _ => True :=
  ofPasses fun _ hs => (Spells.reportAt hs token problem).passes

theorem report (problem : Problem) : Yields tokens (report problem) fun _ => True :=
  ofPasses fun _ hs => (Spells.report hs problem).passes

theorem expect (expected : TokenKind) : Yields tokens (expect expected) fun _ => True :=
  ofPasses fun _ hs => (Spells.expect hs expected).passes

theorem expectLineEnd : Yields tokens expectLineEnd fun _ => True :=
  .look fun _ => .ite (fun _ => pure trivial) fun _ => .look fun _ => report _

theorem forM {f : γ → Parse PUnit} (hf : ∀ c, Yields tokens (f c) fun _ => True) (l : List γ) :
    Yields tokens (l.forM f) fun _ => True := by
  induction l with
  | nil => exact pure trivial
  | cons c l ih => exact (hf c).andThen fun _ => ih

theorem optionForM {f : γ → Parse PUnit} (hf : ∀ c, Yields tokens (f c) fun _ => True) (o : Option γ) :
    Yields tokens (o.forM f) fun _ => True := by
  cases o with
  | none => exact pure trivial
  | some c => exact hf c

theorem update {f : State → State} (hf : ∀ s : State, s.Transcribing tokens → (f s).Transcribing tokens) :
    Yields tokens (modify f) fun _ => True :=
  fun s hs => ⟨hf s hs, trivial⟩

/-- Declaring variables, and opening and closing scopes. -/
theorem scopes (f : State → Scopes) : Yields tokens (modify fun s => { s with scopes := f s }) fun _ => True :=
  ofPasses fun _ hs => hs.passesTo ⟨rfl, rfl, rfl, rfl⟩ rfl rfl ⟨rfl, rfl, Nat.le_refl _, hs.pos_le⟩

end Yields

namespace YieldsTry
variable {m : Attempt α}

theorem pure {a : α} (h : A a) : YieldsTry tokens (pure a) A :=
  Yields.pure fun _ ha => Option.some.inj ha ▸ h

theorem failure : YieldsTry tokens (failure : Attempt α) A := Yields.pure nofun

theorem bind {f : α → Attempt β} (hm : YieldsTry tokens m A) (hf : ∀ a, A a → YieldsTry tokens (f a) B) :
    YieldsTry tokens (m >>= f) B := by
  unfold YieldsTry
  rw [OptionT.run_bind]
  refine Yields.bind hm fun r hr => ?_
  cases r with
  | none => exact Yields.pure nofun
  | some a => exact hf a (hr a rfl)

/-- Goes on after a parser that always has a result. -/
theorem after {m : Parse α} {f : α → Attempt β} (hm : Yields tokens m A)
    (hf : ∀ a, A a → YieldsTry tokens (f a) B) : YieldsTry tokens (liftM m >>= f) B :=
  Yields.bind (f := fun a => (f a).run) hm hf

theorem lift {m : Parse α} (hm : Yields tokens m A) : YieldsTry tokens (liftM m) A :=
  Yields.bind (f := fun a => Pure.pure (some a)) hm fun _ ha => .pure fun _ h => Option.some.inj h ▸ ha

theorem state {f : State → Attempt β} (hf : ∀ s, YieldsFrom tokens s (f s).run fun r => ∀ b, r = some b → B b) :
    YieldsTry tokens (liftM (MonadState.get : Parse State) >>= f) B :=
  fun s hs => hf s hs

theorem look {g : State → γ} {f : γ → Attempt β} (hf : ∀ c, YieldsTry tokens (f c) B) :
    YieldsTry tokens (liftM (do return g (← get) : Parse γ) >>= f) B :=
  Yields.look (f := fun c => (f c).run) hf

theorem get {f : State → Attempt β} (hf : ∀ s, s.Transcribing tokens → YieldsTry tokens (f s) B) :
    YieldsTry tokens (liftM (MonadState.get : Parse State) >>= f) B :=
  Yields.get (f := fun s => (f s).run) hf

theorem ite {c : Prop} [Decidable c] {m n : Attempt α} (hm : c → YieldsTry tokens m A)
    (hn : ¬ c → YieldsTry tokens n A) : YieldsTry tokens (if c then m else n) A := by
  split
  · next h => exact hm h
  · next h => exact hn h

theorem failAt (token : Token) (problem : Problem) : YieldsTry tokens (failAt token problem : Attempt α) A :=
  after (.reportAt token problem) fun _ _ => failure

theorem fail (problem : Problem) : YieldsTry tokens (fail problem : Attempt α) A :=
  after (.report problem) fun _ _ => failure

theorem ifFail {c : Prop} [Decidable c] {fails : Attempt γ} {rest : Attempt β}
    (hfails : YieldsTry tokens fails fun _ => False) (h : ¬ c → YieldsTry tokens rest B) :
    YieldsTry tokens (if c then fails >>= fun _ => rest else rest) B :=
  ite (fun _ => hfails.bind fun _ hfalse => hfalse.elim) h

theorem unlessFail {c : Prop} [Decidable c] {fails : Attempt γ} {rest : Attempt β}
    (hfails : YieldsTry tokens fails fun _ => False) (h : c → YieldsTry tokens rest B) :
    YieldsTry tokens (if c then rest else fails >>= fun _ => rest) B :=
  ite h fun _ => hfails.bind fun _ hfalse => hfalse.elim

theorem require (expected : TokenKind) : YieldsTry tokens (require expected) fun _ => True :=
  after (.expect expected) fun _ _ => ite (fun _ => pure trivial) fun _ => failure

theorem orNextLine (hm : YieldsTry tokens m A) : YieldsTry tokens (orNextLine m) A := by
  refine Yields.bind hm fun r hr => ?_
  exact .ite (fun _ => Yields.nextLine.andThen fun _ => .pure hr) fun _ => .pure hr

/-- An expression is read. -/
theorem ofSpells {m : Attempt Expr} (hm : ∀ s : State, s.Lexed → SpellsExpr s m) :
    YieldsTry tokens m (Expr.Transcribes tokens) := fun s hs =>
  have hspells := hm s hs.toLexed
  ⟨hs.passes hspells.passes, fun e he => (hspells.result e he).transcribes hs hspells.passes⟩

end YieldsTry

/-! ### Parsers that begin at a given token -/

namespace YieldsFrom
variable {m : Attempt α}

theorem bind {f : α → Attempt β} (hm : YieldsFrom tokens s m.run fun r => ∀ a, r = some a → A a)
    (hf : ∀ a, A a → YieldsTry tokens (f a) B) :
    YieldsFrom tokens s (m >>= f).run fun r => ∀ b, r = some b → B b := by
  have hrest (r : Option α) (hr : ∀ a, r = some a → A a) :
      Yields tokens (r.elim (Pure.pure none) fun a => (f a).run) fun r => ∀ b, r = some b → B b := by
    cases r with
    | none => exact .pure nofun
    | some a => exact hf a (hr a rfl)
  intro hs
  rw [OptionT.run_bind]
  exact hrest _ (hm hs).2 _ (hm hs).1

theorem look {g : State → γ} {f : γ → Attempt β} {B : Option β → Prop} (hf : YieldsFrom tokens s (f (g s)).run B) :
    YieldsFrom tokens s (liftM (do return g (← get) : Parse γ) >>= f : Attempt β).run B :=
  hf

theorem ifFail {c : Prop} [Decidable c] {fails : Attempt γ} {rest : Attempt β}
    (hfails : YieldsTry tokens fails fun _ => False)
    (h : ¬ c → YieldsFrom tokens s rest.run fun r => ∀ b, r = some b → B b) :
    YieldsFrom tokens s (if c then fails >>= fun _ => rest else rest : Attempt β).run
      fun r => ∀ b, r = some b → B b := by
  split
  · exact bind (hfails s) fun _ hfalse => hfalse.elim
  · next hc => exact h hc

theorem orNextLine (hm : YieldsFrom tokens s m.run fun r => ∀ a, r = some a → A a) :
    YieldsFrom tokens s (orNextLine m).run fun r => ∀ a, r = some a → A a := by
  intro hs
  obtain ⟨ht, hresult⟩ := hm hs
  have hrest : Yields tokens (do
      if (m.run.run s).1.isNone then nextLine
      return (m.run.run s).1) fun r => ∀ a, r = some a → A a :=
    .ite (fun _ => Yields.nextLine.andThen fun _ => .pure hresult) fun _ => .pure hresult
  exact hrest _ ht

end YieldsFrom

/-! ### Expressions -/

theorem topLevelExpr_yields : YieldsTry tokens topLevelExpr (Expr.Transcribes tokens) :=
  .ofSpells fun _ hs => topLevelExpr_spells hs

theorem exprListWithin_yields (fuel : Nat) {done : Array Expr} (hdone : ∀ e ∈ done, e.Transcribes tokens) :
    YieldsTry tokens (exprListWithin nested fuel done) fun es => ∀ e ∈ es, e.Transcribes tokens := by
  induction fuel generalizing done with
  | zero => exact .pure fun e he => hdone e (Array.mem_toList_iff.1 he)
  | succ fuel ih =>
    have hspaced : YieldsTry tokens (spacedExpr nested) (Expr.Transcribes tokens) :=
      .ofSpells fun _ hs => spacedExpr_spells (fun _ p hs => nested_spells p hs) hs
    have hlist : Yields tokens atListEnd fun _ => True :=
      .ofPasses fun s hs => by rw [atListEnd_state s]; exact hs.passes
    refine .after hlist fun ended _ => .ite (fun _ => ?_) fun _ => hspaced.bind fun e he => ?_
    · exact .pure fun e he => hdone e (Array.mem_toList_iff.1 he)
    refine .after (m := skipBlank) (.ofPasses fun _ hs => hs.passes_skipBlank) fun _ _ => ih fun f hf => ?_
    rcases Array.mem_push.1 hf with hf | rfl
    · exact hdone f hf
    · exact he

theorem exprList_yields : YieldsTry tokens (exprList nested) fun es => ∀ e ∈ es, e.Transcribes tokens :=
  .get fun s _ => exprListWithin_yields s.fuel nofun

/-! ### Simple statements -/

theorem checkDecl_yields (v : Var) (allowAnonymous : Bool) :
    Yields tokens (checkDecl v allowAnonymous) fun _ => True := by
  refine .get fun s _ => ?_
  split
  · exact .pure trivial
  · exact (Yields.reportAt _ _).andThen fun _ => .pure trivial

theorem declareVar_yields (v : Var) : Yields tokens (declareVar v) fun _ => True := .scopes _

theorem typedVar_yields : Yields tokens typedVar fun _ => True := by
  refine .look fun token => Yields.advance.andThen fun _ => Yields.advance.andThen fun _ => ?_
  refine (Yields.ofPasses fun _ hs => (type_spells hs).passes).andThen fun ty => .look fun _ => ?_
  extract_lets value rest
  exact .ite (fun _ => (Yields.reportAt _ _).andThen fun _ => .pure trivial) fun _ => .pure trivial

theorem typedDecl_yields : Yields tokens typedDecl (Stmt.Each (Expr.Transcribes tokens)) := by
  refine typedVar_yields.andThen fun ⟨v, value⟩ => ?_
  dsimp -zeta only
  extract_lets rest
  have hrest (u : Unit) : Yields tokens (rest u) (Stmt.Each (Expr.Transcribes tokens)) :=
    .look fun _ => Yields.nextLine.andThen fun _ => .pure trivial
  refine .ite (fun _ => (checkDecl_yields _ _).andThen fun ok => ?_) fun _ => hrest ()
  refine .ite (fun _ => (declareVar_yields v).andThen fun _ => ?_) fun _ => hrest ()
  exact Yields.expectLineEnd.andThen hrest

theorem inferredDecl_yields : YieldsTry tokens inferredDecl (Stmt.Each (Expr.Transcribes tokens)) := by
  refine Yields.bind ?_ fun stmt hstmt => Yields.nextLine.andThen fun _ => .pure hstmt
  refine YieldsTry.look fun token => .after .advance fun _ _ => .after .advance fun _ _ => .look fun _ => ?_
  refine .after topLevelExpr_yields fun value? hvalue => ?_
  cases value? with
  | none => exact .fail _
  | some value =>
    have hinferred := (hvalue value rfl).retell (Expr.retells_infer value)
    refine .ifFail (.fail _) fun _ => .after (checkDecl_yields _ _) fun ok _ => ?_
    refine .unlessFail .failure fun _ => .after (declareVar_yields _) fun _ _ => ?_
    exact .after .expectLineEnd fun _ _ => .look fun _ => .pure hinferred

theorem emptyLine_yields : Yields tokens emptyLine (Stmt.Each (Expr.Transcribes tokens)) := by
  refine .look fun token => .look fun _ => ?_
  extract_lets rest
  have hrest (u : Unit) : Yields tokens (rest u) (Stmt.Each (Expr.Transcribes tokens)) :=
    Yields.advance.andThen fun _ => .pure trivial
  exact .ite (fun _ => Yields.advance.andThen hrest) fun _ => hrest ()

/-- An assignment is read from the token of a name on. -/
theorem assignment_yields (hk : s.cur.kind = .ident) :
    YieldsFrom tokens s assignment.run fun r => ∀ stmt, r = some stmt → stmt.Each (Expr.Transcribes tokens) := by
  have htarget : YieldsFrom tokens s assignTarget.run fun r => ∀ e, r = some e → e.Transcribes tokens :=
    fun hs =>
      have hspells := assignTarget_spells hs.toLexed hk
      ⟨hs.passes hspells.passes, fun e he => (hspells.result e he).transcribes hs hspells.passes⟩
  refine .orNextLine (.look (g := State.cur) (.look (g := fun t => t.isFunc s.cur.literal) ?_))
  refine .ifFail (.fail _) fun _ => htarget.bind fun target htarget => .after (.expect _) fun _ _ => ?_
  refine .after .advance fun _ _ => topLevelExpr_yields.bind fun value hvalue => ?_
  have hfitted := hvalue.retell (Expr.retells_wrap target.ty value)
  extract_lets rest
  have hrest (u : Unit) : YieldsTry tokens (rest u) (Stmt.Each (Expr.Transcribes tokens)) :=
    .after .expectLineEnd fun _ _ => .look fun _ => .after .nextLine fun _ _ => .pure ⟨htarget, hfitted⟩
  exact .ite (fun _ => hrest ()) fun _ => .after (.reportAt _ _) fun _ _ => hrest ()

/-- A call is read from the token of its name on. -/
theorem callStmt_yields (hk : s.cur.kind = .ident) :
    YieldsFrom tokens s callStmt.run fun r => ∀ stmt, r = some stmt → stmt.Each (Expr.Transcribes tokens) := by
  have hcall : YieldsFrom tokens s (call nested).run fun r => ∀ c, r = some c →
      (Expr.call ⟨c.token, c.result.fixed⟩ c.name c.args c.result).Transcribes tokens := by
    intro hs
    have hspells := call_spells (fun _ p hs => nested_spells p hs) hs.toLexed hk
    refine ⟨hs.passes hspells.passes, fun c hc => ?_⟩
    obtain ⟨hlayered, hwords⟩ := hspells.result c hc
    exact Tells.transcribes ⟨hwords.symm, hlayered⟩ hs hspells.passes
  refine .orNextLine (hcall.bind fun c hc => .after .expectLineEnd fun _ _ => ?_)
  exact .look fun _ => .after .nextLine fun _ _ => .pure hc

theorem returnStmt_yields : Yields tokens returnStmt (Stmt.Each (Expr.Transcribes tokens)) := by
  refine .look fun token => Yields.advance.andThen fun _ => .look fun valueToken => .look fun ended => ?_
  extract_lets finish afterValue
  have hfinish (u : Unit) {value : Option Expr} (hvalue : ∀ e, value = some e → e.Transcribes tokens) :
      Yields tokens (finish u value) (Stmt.Each (Expr.Transcribes tokens)) :=
    .look fun _ => Yields.nextLine.andThen fun _ => .pure hvalue
  have hafter {value : Option Expr} (hvalue : ∀ e, value = some e → e.Transcribes tokens) :
      Yields tokens (afterValue value) (Stmt.Each (Expr.Transcribes tokens)) := by
    have hreport (problem : Problem) : Yields tokens (do
        let u ← reportAt valueToken problem
        finish u value) (Stmt.Each (Expr.Transcribes tokens)) :=
      (Yields.reportAt _ _).andThen fun u => hfinish u hvalue
    have hfitted (result : Ty) : ∀ e, value.map (Expr.wrap result) = some e → e.Transcribes tokens := by
      intro e he
      obtain ⟨inner, hinner, rfl⟩ := Option.map_eq_some_iff.1 he
      exact (hvalue inner hinner).retell (Expr.retells_wrap result inner)
    refine .ite (fun _ => Yields.expectLineEnd.andThen fun _ => .get fun u _ => ?_) fun _ => .get fun u _ => ?_
    all_goals
      split
      · exact hreport _
      · refine .ite (fun _ => hfinish () (hfitted _)) fun _ => ?_
        exact .ite (fun _ => hreport _) fun _ => hreport _
  exact .ite (fun _ => @hafter none nofun) fun _ =>
    Yields.bind topLevelExpr_yields fun value hvalue => hafter hvalue

theorem breakStmt_yields : Yields tokens breakStmt (Stmt.Each (Expr.Transcribes tokens)) := by
  refine .look fun token => .get fun u _ => ?_
  extract_lets rest
  have hrest (u : Unit) : Yields tokens (rest u) (Stmt.Each (Expr.Transcribes tokens)) :=
    Yields.advance.andThen fun _ => Yields.expectLineEnd.andThen fun _ => .look fun _ =>
      Yields.nextLine.andThen fun _ => .pure trivial
  exact .ite (fun _ => hrest ()) fun _ => (Yields.report _).andThen hrest

/-! ### Statements with blocks -/

theorem blockEnd_yields : Yields tokens blockEnd fun _ => True :=
  (Yields.expect _).andThen fun _ => Yields.advance.andThen fun _ => .look fun _ =>
    Yields.nextLine.andThen fun _ => .pure trivial

theorem leaveScope_yields : Yields tokens leaveScope fun _ => True := by
  refine .get fun s _ => (Yields.scopes _).andThen fun _ => ?_
  exact .forM (fun v => .reportAt _ _) _

theorem condition_yields : YieldsTry tokens condition (Expr.Transcribes tokens) := by
  refine .look fun token => topLevelExpr_yields.bind fun e he => .after .expectLineEnd fun _ _ => ?_
  exact .ite (fun _ => .pure he) fun _ => .after (.reportAt _ _) fun _ _ => .pure he

section
variable {block : Blocks} (h : ∀ ends, Yields tokens (block ends) (Block.Each (Expr.Transcribes tokens)))
include h

theorem branch_yields (ends : List TokenKind) :
    Yields tokens (branch block ends) fun r => ∀ b, r = some b → b.Each (Expr.Transcribes tokens) := by
  refine Yields.look fun token => Yields.advance.andThen fun _ => Yields.bind condition_yields fun cond hcond => ?_
  refine .look fun _ => Yields.nextLine.andThen fun _ => (h ends).bind fun body hbody => .pure fun b hb => ?_
  obtain ⟨e, he, rfl⟩ := Option.map_eq_some_iff.1 hb
  exact ⟨hcond e he, hbody⟩

theorem whileStmt_yields : YieldsTry tokens (whileStmt block) (Stmt.Each (Expr.Transcribes tokens)) := by
  refine Yields.look fun token => Yields.advance.andThen fun _ => (Yields.scopes _).andThen fun _ => ?_
  refine Yields.bind condition_yields fun cond hcond => .look fun _ => Yields.nextLine.andThen fun _ => ?_
  refine (h _).bind fun body hbody => leaveScope_yields.andThen fun _ => blockEnd_yields.andThen fun _ => ?_
  refine .pure fun stmt hstmt => ?_
  obtain ⟨e, he, rfl⟩ := Option.map_eq_some_iff.1 hstmt
  exact ⟨hcond e he, hbody.withComment _⟩

theorem scopedBranch_yields :
    Yields tokens (scopedBranch block) fun r => ∀ b, r = some b → b.Each (Expr.Transcribes tokens) :=
  (Yields.scopes _).andThen fun _ => (branch_yields h _).bind fun _ hb =>
    leaveScope_yields.andThen fun _ => .pure hb

theorem moreBranches_yields (fuel : Nat) {done : Array (Option Branch)}
    (hdone : ∀ r ∈ done, ∀ b, r = some b → b.Each (Expr.Transcribes tokens)) :
    Yields tokens (moreBranches block fuel done) fun rs =>
      ∀ r ∈ rs, ∀ b, r = some b → b.Each (Expr.Transcribes tokens) := by
  induction fuel generalizing done with
  | zero => exact .pure fun r hr => hdone r (Array.mem_toList_iff.1 hr)
  | succ fuel ih =>
    refine .get fun s _ => .ite (fun _ => ?_) fun _ => .pure fun r hr => hdone r (Array.mem_toList_iff.1 hr)
    refine Yields.advance.andThen fun _ => (scopedBranch_yields h).bind fun b hb => ih fun r hr => ?_
    rcases Array.mem_push.1 hr with hr | rfl
    · exact hdone r hr
    · exact hb

theorem otherwise_yields : Yields tokens (otherwise block) (Block.EachLast (Expr.Transcribes tokens)) := by
  refine .look fun k => .ite (fun _ => .pure trivial) fun _ => Yields.advance.andThen fun _ => ?_
  refine Yields.expectLineEnd.andThen fun _ => .look fun comment => Yields.nextLine.andThen fun _ => ?_
  refine (Yields.scopes _).andThen fun _ => (h _).bind fun body hbody => ?_
  exact leaveScope_yields.andThen fun _ => .pure (hbody.withComment comment)

theorem ifStmt_yields : YieldsTry tokens (ifStmt block) (Stmt.Each (Expr.Transcribes tokens)) := by
  refine Yields.look fun token => (scopedBranch_yields h).bind fun first hfirst => .get fun s _ => ?_
  have hnil : ∀ r ∈ (#[] : Array (Option Branch)), ∀ b, r = some b → b.Each (Expr.Transcribes tokens) := by
    simp
  refine (moreBranches_yields h _ hnil).bind fun more hmore => (otherwise_yields h).bind fun last hlast => ?_
  refine blockEnd_yields.andThen fun comment => .pure fun stmt hstmt => ?_
  cases first with
  | none => cases hstmt
  | some first =>
  cases hmap : more.mapM id with
  | none => simp [hmap] at hstmt
  | some branches =>
  obtain rfl : _ = stmt := by simpa [hmap] using hstmt
  obtain rfl := eq_map_some hmap
  exact ⟨hfirst first rfl, Branch.eachOf_iff.2 fun b hb => hmore _ (List.mem_map_of_mem hb) b rfl, hlast⟩

end

/-! ### Loops over ranges -/

theorem stepRange_yields {args : List Expr} (hargs : ∀ e ∈ args, e.Transcribes tokens) (token : Token) :
    YieldsTry tokens (stepRange args token) (Range.Each (Expr.Transcribes tokens)) := by
  have hfails (problem : Problem) : YieldsTry tokens (failAt token problem : Attempt PUnit) fun _ => False :=
    .failAt _ _
  unfold stepRange
  extract_lets finish judge
  have hfinish (u : PUnit) : YieldsTry tokens (finish u) (Range.Each (Expr.Transcribes tokens)) := by
    dsimp only [finish]
    split
    · exact .pure (by simpa [Range.Each] using hargs)
    · exact .pure (by simpa [Range.Each] using hargs)
    · exact .pure (by simpa [Range.Each, and_assoc] using hargs)
    · exact .failure
  have hjudge (u : PUnit) : YieldsTry tokens (judge u) (Range.Each (Expr.Transcribes tokens)) := by
    dsimp only [judge]
    split
    · exact (hfails _).bind fun _ hfalse => hfalse.elim
    · exact hfinish ⟨⟩
  exact .ite (fun _ => (hfails _).bind fun _ hfalse => hfalse.elim) fun _ => hjudge ⟨⟩

theorem rangeOf_yields {first : Expr} {args : List Expr} (hfirst : first.Transcribes tokens)
    (hargs : ∀ e ∈ args, e.Transcribes tokens) (token : Token) :
    Yields tokens (rangeOf first args token) fun r =>
      ∀ range, r.1 = some range → range.Each (Expr.Transcribes tokens) := by
  have hover : ∀ range, some (Range.over first) = some range → range.Each (Expr.Transcribes tokens) := by
    rintro _ ⟨⟩
    exact hfirst
  unfold rangeOf
  dsimp only
  split
  · exact .pure hover
  · exact .pure hover
  · exact .pure hover
  · exact Yields.bind (stepRange_yields hargs token) fun range hrange => .pure hrange
  · exact (Yields.report _).andThen fun _ => .pure nofun

theorem loopVar_yields : YieldsTry tokens loopVar fun _ => True := by
  refine .look fun token => .ite (fun _ => .pure trivial) fun _ => .after (checkDecl_yields _ _) fun ok _ => ?_
  refine .unlessFail .failure fun _ => .after .advance fun _ _ => .after (.expect _) fun _ _ => ?_
  exact .after .advance fun _ _ => .pure trivial

theorem eachHead_yields : YieldsTry tokens eachHead fun head =>
    ∀ range, head.range = some range → range.Each (Expr.Transcribes tokens) := by
  refine .orNextLine (loopVar_yields.bind fun var _ => (YieldsTry.require _).bind fun _ _ => ?_)
  refine .look fun token => .after .advance fun _ _ => exprList_yields.bind fun args hargs => ?_
  cases args with
  | nil => exact .fail _
  | cons first rest =>
    refine .ifFail (.fail _) fun _ => .after .expectLineEnd fun _ _ => ?_
    refine .after (rangeOf_yields (hargs first List.mem_cons_self) hargs token) fun r hr => .pure hr

section
variable {block : Blocks} (h : ∀ ends, Yields tokens (block ends) (Block.Each (Expr.Transcribes tokens)))
include h

theorem eachBody_yields (token : Token) :
    YieldsTry tokens (eachBody block token) (Stmt.Each (Expr.Transcribes tokens)) := by
  refine .after .advance fun _ _ => eachHead_yields.bind fun head hhead => ?_
  extract_lets var
  rw [forM_lift]
  refine .after (.optionForM (fun v => declareVar_yields v) var) fun _ _ => .look fun comment => ?_
  refine .after .nextLine fun _ _ => .after (h _) fun body hbody => .after leaveScope_yields fun _ _ => ?_
  refine .after blockEnd_yields fun endComment _ => ?_
  cases hrange : head.range with
  | none => exact .failure
  | some range => exact .pure ⟨hhead range hrange, hbody.withComment endComment⟩

theorem eachStmt_yields : YieldsTry tokens (eachStmt block) (Stmt.Each (Expr.Transcribes tokens)) := by
  refine Yields.look fun token => (Yields.scopes _).andThen fun _ => ?_
  refine Yields.bind (eachBody_yields h token) fun stmt hstmt => ?_
  exact .ite (fun _ => (Yields.scopes _).andThen fun _ => .pure hstmt) fun _ => .pure hstmt

/-! ### Statements and blocks -/

theorem statement_yields : YieldsTry tokens (statement block) (Stmt.Each (Expr.Transcribes tokens)) := by
  have hnone (problem : Problem) :
      YieldsTry tokens (orNextLine (fail problem)) (Stmt.Each (Expr.Transcribes tokens)) :=
    .orNextLine (.fail problem)
  have hempty : YieldsTry tokens (liftM emptyLine) (Stmt.Each (Expr.Transcribes tokens)) := .lift emptyLine_yields
  refine .state fun s => ?_
  split
  · exact YieldsTry.after .advance (fun _ _ => .failure) s
  · exact hempty s
  · exact hempty s
  · next hk =>
    generalize s.peek.kind = next
    split
    · exact assignment_yields hk
    · exact assignment_yields hk
    · exact YieldsTry.lift typedDecl_yields s
    · exact inferredDecl_yields s
    · split
      · exact callStmt_yields hk
      split
      · exact assignment_yields hk
      · exact hnone _ s
  · exact YieldsTry.lift returnStmt_yields s
  · exact YieldsTry.lift breakStmt_yields s
  · exact eachStmt_yields h s
  · exact whileStmt_yields h s
  · exact ifStmt_yields h s
  · exact hnone _ s

theorem stmtsWithin_yields (ends : List TokenKind) (fuel : Nat) {done : Array Stmt} (terminated : Bool)
    (hdone : ∀ stmt ∈ done, stmt.Each (Expr.Transcribes tokens)) :
    Yields tokens (stmtsWithin block ends fuel done terminated) fun stmts =>
      ∀ stmt ∈ stmts, stmt.Each (Expr.Transcribes tokens) := by
  induction fuel generalizing done terminated with
  | zero => exact .pure fun stmt hstmt => hdone stmt (Array.mem_toList_iff.1 hstmt)
  | succ fuel ih =>
    refine .look fun token => .ite (fun _ => ?_) fun _ => Yields.bind (statement_yields h) fun stmt? hstmt => ?_
    · exact .pure fun stmt hstmt => hdone stmt (Array.mem_toList_iff.1 hstmt)
    cases stmt? with
    | none => exact ih _ hdone
    | some stmt =>
      refine .ite (fun _ => (Yields.reportAt _ _).andThen fun _ => ih _ hdone) fun _ => ?_
      exact ih _ (Stmt.each_push hdone (hstmt stmt rfl))

end

theorem blockWithin_yields (fuel : Nat) (ends : List TokenKind) :
    Yields tokens (blockWithin fuel ends) (Block.Each (Expr.Transcribes tokens)) := by
  induction fuel generalizing ends with
  | zero => exact .pure trivial
  | succ fuel ih =>
    refine .look fun token => .get fun s _ => (stmtsWithin_yields ih ends _ false (by simp)).bind fun stmts hstmts => ?_
    have hblock : (Block.mk token none stmts).Each (Expr.Transcribes tokens) := Stmt.eachOf_iff.2 hstmts
    exact .ite (fun _ => (Yields.reportAt _ _).andThen fun _ => .pure hblock) fun _ => .pure hblock

theorem block_yields (ends : List TokenKind) :
    Yields tokens (block ends) (Block.Each (Expr.Transcribes tokens)) :=
  .get fun _ _ => blockWithin_yields _ ends

/-! ### Functions and handlers -/

theorem paramsWithin_yields (fuel : Nat) (done : Array Var) :
    Yields tokens (paramsWithin fuel done) fun _ => True := by
  induction fuel generalizing done with
  | zero => exact .pure trivial
  | succ fuel ih =>
    refine .look fun ended => .look fun k => .ite (fun _ => .pure trivial) fun _ => ?_
    exact (Yields.expect _).andThen fun _ => typedVar_yields.andThen fun _ => ih _

theorem signature_yields : YieldsTry tokens signature fun _ => True := by
  refine .look fun token => .after .advance fun _ _ => (YieldsTry.orNextLine (.require _)).bind fun _ _ => ?_
  refine .look fun nameToken => .after .advance fun _ _ => .look fun k => ?_
  extract_lets _ _ rest
  have hrest (u : Unit) (result : Ty) : YieldsTry tokens (rest u result) fun _ => True := by
    refine .get fun s _ => .after (paramsWithin_yields _ _) fun params _ => .look fun _ => ?_
    extract_lets finish
    have hfinish (u : Unit) (params : List Var) (variadic : Option Var) :
        YieldsTry tokens (finish u params variadic) fun _ => True :=
      .after .expectLineEnd fun _ _ => .after .nextLine fun _ _ => .pure trivial
    refine .ite (fun _ => .after .advance fun _ _ => ?_) fun _ => hfinish () _ _
    split
    · exact hfinish () _ _
    · exact .after (.report _) fun u _ => hfinish u _ _
  refine .ite (fun _ => .after .advance fun _ _ => ?_) fun _ => hrest () _
  refine .after (.ofPasses fun _ hs => (type_spells hs).passes) fun result _ => ?_
  exact .ite (fun _ => .look fun _ => .after (.reportAt _ _) fun u _ => hrest u _) fun _ => hrest () _

theorem addSignature_yields (token : Token) (sig : Signature) :
    Yields tokens (addSignature token sig) fun _ => True := by
  refine .get fun s _ => ?_
  extract_lets known rest
  have hknown (u : Unit) : Yields tokens (known u) fun _ => True :=
    .update fun s hs => ⟨⟨⟨hs.pos_le, hs.eof⟩, hs.lineEnds⟩, hs.input, hs.declared, hs.handlers⟩
  have hrest (u : Unit) : Yields tokens (rest u) fun _ => True :=
    .ite (fun _ => (Yields.reportAt _ _).andThen hknown) fun _ =>
      .ite (fun _ => (Yields.reportAt _ _).andThen hknown) fun _ => hknown ()
  exact .ite (fun _ => (Yields.reportAt _ _).andThen hrest) fun _ => hrest ()

/-- A signature is read wherever it begins within the tokens. -/
theorem signatureAt_yields {pos : Nat} (hpos : pos ≤ tokens.size) :
    Yields tokens (signatureAt pos) fun _ => True := by
  refine Yields.andThen (m := modify _) (.update fun s hs => ?_) fun _ => ?_
  · exact ⟨⟨⟨by rw [hs.input]; exact hpos, hs.eof⟩, hs.lineEnds⟩, hs.input, hs.declared, hs.handlers⟩
  · refine Yields.bind signature_yields fun r _ => ?_
    cases r with
    | none => exact .pure trivial
    | some r => exact addSignature_yields _ _

theorem declareParams_yields (sig : Signature) : Yields tokens (declareParams sig) fun _ => True := by
  have hparam (v : Var) (ty : Ty) : Yields tokens (declareParam v ty) fun _ => True :=
    (checkDecl_yields _ _).andThen fun _ => declareVar_yields _
  exact (Yields.forM (fun v => hparam v _) _).andThen fun _ => .optionForM (fun v => hparam v _) _

theorem function_yields : YieldsTry tokens function (Stmt.Each (Expr.Transcribes tokens)) := by
  refine .look fun token => .after .advance fun _ _ => .look fun nameToken => ?_
  have hlineEnd : Yields tokens (modify State.toLineEnd) fun _ => True :=
    .ofPasses fun s hs => hs.passesAlike s.alike_toLineEnd (State.leads_toLineEnd hs.toInRange)
  refine .after hlineEnd fun _ _ => .get fun s _ => ?_
  extract_lets comment signature result
  rw [forM_lift]
  refine .after .nextLine fun _ _ => .after (.scopes _) fun _ _ => ?_
  refine .after (.optionForM (fun sig => declareParams_yields sig) signature) fun _ _ => ?_
  refine .after (block_yields _) fun body hbody => .after leaveScope_yields fun _ _ => ?_
  extract_lets rest
  have hrest (u : Unit) : YieldsTry tokens (rest u) (Stmt.Each (Expr.Transcribes tokens)) := by
    refine .after blockEnd_yields fun endComment _ => ?_
    have hcommented := hbody.withComment endComment
    cases signature with
    | none => exact .failure
    | some sig =>
      refine .ifFail .failure fun _ => .get fun t _ => .ifFail .failure fun _ => ?_
      refine .after (m := modify _) (.update fun u hu => ?_) fun _ _ => .pure hcommented
      refine ⟨⟨⟨hu.pos_le, hu.eof⟩, hu.lineEnds⟩, hu.input, ?_, hu.handlers⟩
      intro f hf
      rcases Array.mem_push.1 hf with hf | rfl
      · exact hu.declared f hf
      · exact hcommented
  exact .ite (fun _ => .after (.report _) fun u _ => hrest u) fun _ => hrest ()

theorem declareEventParams_yields (params expected : List Var) :
    Yields tokens (declareEventParams params expected) fun _ => True := by
  induction params generalizing expected with
  | nil => exact .pure trivial
  | cons v params ih =>
    refine (checkDecl_yields _ _).andThen fun _ => Yields.andThen (.optionForM (fun e => ?_) _) fun _ => ?_
    · exact .ite (fun _ => .pure trivial) fun _ => .report _
    · exact (declareVar_yields _).andThen fun _ => ih _

theorem checkEventParams_yields (name : String) (params : List Var) :
    Yields tokens (checkEventParams name params) fun _ => True := by
  refine .ite (fun _ => .pure trivial) fun _ => .get fun s _ => ?_
  split
  · exact .pure trivial
  · have hdeclare : ∀ expected, Yields tokens (declareEventParams params expected) fun _ => True :=
      declareEventParams_yields params
    exact .ite (fun _ => (Yields.report _).andThen fun _ => hdeclare _) fun _ => hdeclare _

theorem eventParamsWithin_yields (fuel : Nat) (done : Array Var) :
    Yields tokens (eventParamsWithin fuel done) fun _ => True := by
  induction fuel generalizing done with
  | zero => exact .pure trivial
  | succ fuel ih =>
    refine .look fun ended => .ite (fun _ => .pure trivial) fun _ => ?_
    exact (Yields.expect _).andThen fun _ => typedVar_yields.andThen fun _ => ih _

theorem handler_yields : YieldsTry tokens handler (Stmt.Each (Expr.Transcribes tokens)) := by
  refine .look fun token => .after .advance fun _ _ => (YieldsTry.orNextLine (.require _)).bind fun _ _ => ?_
  refine .look fun nameToken => .get fun s _ => ?_
  extract_lets problem
  rw [forM_lift]
  refine .after (.optionForM (fun p => .report p) problem) fun _ _ => .after .advance fun _ _ => .get fun t _ => ?_
  refine .after (eventParamsWithin_yields _ _) fun params _ => .look fun comment => ?_
  refine .after .nextLine fun _ _ => .after (.scopes _) fun _ _ => ?_
  refine .after (checkEventParams_yields _ _) fun _ _ => .after (block_yields _) fun body hbody => ?_
  refine .after leaveScope_yields fun _ _ => .after blockEnd_yields fun endComment _ => ?_
  have hcommented := hbody.withComment endComment
  refine .ite (fun _ => .after (m := modify _) (.update fun u hu => ?_) fun _ _ => .pure hcommented) fun _ =>
    .pure hcommented
  refine ⟨⟨⟨hu.pos_le, hu.eof⟩, hu.lineEnds⟩, hu.input, hu.declared, ?_⟩
  intro f hf
  rcases Array.mem_push.1 hf with hf | rfl
  · exact hu.handlers f hf
  · exact hcommented

/-! ### Programs -/

theorem programWithin_yields (fuel : Nat) {done : Array Stmt} (terminated : Bool)
    (hdone : ∀ stmt ∈ done, stmt.Each (Expr.Transcribes tokens)) :
    Yields tokens (programWithin fuel done terminated) fun stmts =>
      ∀ stmt ∈ stmts, stmt.Each (Expr.Transcribes tokens) := by
  induction fuel generalizing done terminated with
  | zero => exact .pure fun stmt hstmt => hdone stmt (Array.mem_toList_iff.1 hstmt)
  | succ fuel ih =>
    have hadd {stmt? : Option Stmt} (hstmt : ∀ stmt, stmt? = some stmt → stmt.Each (Expr.Transcribes tokens)) :
        ∀ stmt ∈ done ++ stmt?.toArray, stmt.Each (Expr.Transcribes tokens) := by
      intro stmt hmem
      rcases Array.mem_append.1 hmem with hmem | hmem
      · exact hdone stmt hmem
      · exact hstmt stmt (Option.mem_toArray.1 hmem)
    refine .look fun token => ?_
    split
    · exact .pure fun stmt hstmt => hdone stmt (Array.mem_toList_iff.1 hstmt)
    · exact Yields.bind function_yields fun stmt? hstmt => ih _ (hadd hstmt)
    · exact Yields.bind handler_yields fun stmt? hstmt => ih _ (hadd hstmt)
    · refine Yields.bind (statement_yields block_yields) fun stmt? hstmt => ?_
      cases stmt? with
      | none => exact ih _ hdone
      | some stmt =>
        refine .ite (fun _ => (Yields.reportAt _ _).andThen fun _ => ih _ hdone) fun _ => ?_
        exact ih _ (Stmt.each_push hdone (hstmt stmt rfl))

end

/-- The tokens of a source are read from their beginning. -/
theorem start_lexed (source : String) (prelude : Prelude) : (State.start source prelude).Lexed where
  toInRange := start_inRange source prelude
  lineEnds := by
    show ((Token.scan source).filter (·.kind != .illegal)).toList.IsChain Token.LineEndAfter
    rw [Array.toList_filter]
    exact (Token.scan_cut source).lineEnds

theorem start_transcribing (source : String) (prelude : Prelude) :
    (State.start source prelude).Transcribing (State.start source prelude).tokens where
  toLexed := start_lexed source prelude
  input := rfl
  declared := by
    show ∀ f ∈ (#[] : Array Function), f.body.Each _
    exact fun f hf => absurd hf (Array.not_mem_empty f)
  handlers := by
    show ∀ f ∈ (#[] : Array Handler), f.body.Each _
    exact fun f hf => absurd hf (Array.not_mem_empty f)

theorem program_yields {tokens : Array Token} : Yields tokens program (Program.Each (Expr.Transcribes tokens)) := by
  have hsignatures (positions : List Nat) (h : ∀ i ∈ positions, i < tokens.size) :
      Yields tokens (positions.forM signatureAt) fun _ => True := by
    induction positions with
    | nil => exact .pure trivial
    | cons i positions ih =>
      obtain ⟨hi, hrest⟩ := List.forall_mem_cons.1 h
      exact (signatureAt_yields (Nat.le_of_lt hi)).andThen fun _ => ih hrest
  refine .get fun s hs => (hsignatures _ fun i hi => ?_).andThen fun _ => (Yields.scopes _).andThen fun _ => ?_
  · rw [← hs.input]
    exact List.mem_range.1 (List.mem_filter.1 hi).1
  refine Yields.andThen (m := modify _) (.update fun s hs => ?_) fun _ => .get fun s _ => ?_
  · exact ⟨⟨⟨Nat.zero_le _, hs.eof⟩, hs.lineEnds⟩, hs.input, hs.declared, hs.handlers⟩
  refine (programWithin_yields _ false (by simp)).bind fun stmts hstmts => leaveScope_yields.andThen fun _ => ?_
  refine .get fun s hs => .pure ⟨hstmts, fun f hf => ?_, fun h hh => ?_⟩
  · exact hs.declared f (Array.mem_toList_iff.1 hf)
  · exact hs.handlers h (Array.mem_toList_iff.1 hh)

/-- What the attempt reads from a state is layered and written with the words of the tokens it passes. -/
def ReadsLayered (s : State) (m : Attempt Expr) : Prop :=
  ∀ e t, m.run.run s = (some e, t) → s.pos ≤ t.pos ∧ e.Layered ∧ e.words = s.wordsTo t

theorem SpellsTry.readsLayered {s : State} {m : Attempt Expr} (h : SpellsExpr s m) : ReadsLayered s m := by
  intro e t hrun
  have hmono := h.passes.leads.mono
  have htells := h.result e (by rw [hrun])
  rw [hrun] at hmono htells
  exact ⟨hmono, htells.layered, htells.words⟩

theorem Program.analyze_each (source : String) (prelude : Prelude) :
    (Program.analyze source prelude).1.Each (Expr.Transcribes (State.start source prelude).tokens) := by
  have hstart := start_transcribing source prelude
  rw [Program.analyze_eq]
  generalize State.start source prelude = start at hstart
  exact (program_yields start hstart).2

theorem State.Shares.readsLayered {start s : State} (h : start.Shares s) (hstart : start.Lexed)
    (hpos : s.pos ≤ s.tokens.size) : ReadsLayered s topLevelExpr ∧ (∀ p, ReadsLayered s (nested p)) ∧
      (s.cur.kind = .ident → ReadsLayered s assignTarget) := by
  have hlexed : s.Lexed := by
    refine ⟨⟨hpos, ?_⟩, ?_⟩
    · rw [h.eof]
      exact hstart.eof
    · rw [h.tokens]
      exact hstart.lineEnds
  refine ⟨(topLevelExpr_spells hlexed).readsLayered, fun p => ?_, fun hk => ?_⟩
  · exact SpellsTry.readsLayered (SpellsTry.weaken (nested_spells p hlexed) fun _ _ _ _ he => he.toTells)
  · exact (assignTarget_spells hlexed hk).readsLayered

/-- In every program that is read, with or without problems, all expressions are layered and written with
the words of consecutive tokens. At every place among the tokens, an expression that is read there is
layered, and its words are those of the tokens that reading it passes. -/
theorem expressions_layered (source : String) (prelude : Prelude) :
    (Program.analyze source prelude).1.Each (Expr.Transcribes (State.start source prelude).tokens) ∧
    ∀ s : State, (State.start source prelude).Shares s → s.pos ≤ s.tokens.size →
      ReadsLayered s topLevelExpr ∧ (∀ p, ReadsLayered s (nested p)) ∧
      (s.cur.kind = .ident → ReadsLayered s assignTarget) :=
  ⟨Program.analyze_each source prelude, fun _ hs hpos => hs.readsLayered (start_lexed source prelude) hpos⟩

/-- Operators of all strengths, with parentheses, a field and a slice among them. -/
def mixedOperators : State :=
  State.start "!true or \"a\" + \"b\"[:] < (\"c\" + \x7ba:\"d\"\x7d.a) and false == true" default

theorem mixedOperators_layered : (∃ e t, topLevelExpr.run.run mixedOperators = (some e, t)) ∧
    ReadsLayered mixedOperators topLevelExpr := by
  have hread : (topLevelExpr.run.run mixedOperators).1.isSome := by decide +kernel
  obtain ⟨e, he⟩ := Option.isSome_iff_exists.1 hread
  refine ⟨⟨e, (topLevelExpr.run.run mixedOperators).2, Prod.ext he rfl⟩, ?_⟩
  exact ((expressions_layered _ default).2 mixedOperators ⟨rfl, rfl⟩ (Nat.zero_le _)).1

end Parsing

end TinyScript
