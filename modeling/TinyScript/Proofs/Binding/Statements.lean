import Mathlib.Data.List.ReduceOption
import TinyScript.Proofs.Binding.Declarations
import TinyScript.Proofs.Binding.Expressions
import TinyScript.Proofs.Parsing.Statements

/-!
# What statements read and declare

A statement that is read without problems is bound where it stands, and what it marks and declares is
what is in it (`Bound`). Every statement is a parser over the parser for the blocks nested in it, so
each has a lemma that takes the claim for those blocks (`BlocksBind`), and `block_binds` ties the knot.
What a parser for a part of a statement has found out is carried along as a proposition, because it is
known only if there are no problems yet.
-/

namespace TinyScript

theorem Block.free_withComment (vars : List Var) (b : Block) (comment : Option String) :
    Block.free vars (b.withComment comment) = Block.free vars b := by
  cases b
  rfl

theorem Branch.freeAll_append (bs cs : List Branch) :
    Branch.freeAll (bs ++ cs) = Branch.freeAll bs ++ Branch.freeAll cs := by
  induction bs with
  | nil => rfl
  | cons b bs ih => rw [List.cons_append, Branch.freeAll, ih, Branch.freeAll, List.append_assoc]

namespace Parsing

variable {α : Type} {φ : Prop} {σ : State} {os : List Occurrence} {vars : List Var} {v : Var} {stmt : Stmt}
  {kind : ScopeKind} {result : Option Ty} {b : Block} {s : State}

/-! ### Scopes -/

/-- A scope that has just been opened has no variables to mark. -/
theorem State.mark_enterWith (σ : State) (kind : ScopeKind) (result : Option Ty) (os : List Occurrence) :
    (σ.enterWith kind result).mark os = (σ.mark os).enterWith kind result := by
  have hscopes : Scopes.markAll (⟨kind, #[], result⟩ :: σ.scopes) os =
      ⟨kind, #[], result⟩ :: σ.scopes.markAll os := by
    induction os using List.reverseRecOn with
    | nil => rfl
    | append_singleton os o ih =>
      rw [Scopes.markAll_append, ih, Scopes.markAll_append]
      exact (Scopes.mark_cons _ _ o.name).trans (if_neg (by simp [Scope.declares]))
  exact congrArg (fun scopes : Scopes => { σ with scopes }) hscopes

/-- What is read at the start of a scope refers to the scopes around it. -/
theorem Reading.intoScope (h : Reading (σ.enterWith kind result) os s) :
    (∀ o ∈ os, σ.scopes.Refers o) ∧ Reading ((σ.mark os).enterWith kind result) [] s := by
  rw [← State.mark_enterWith]
  exact h.rebase

/-- What has been read before a declaration refers to what was declared before it. -/
theorem declareVar_binds (v : Var) : Parses (Reading σ os) (declareVar v) fun _ s =>
    (∀ o ∈ os, σ.scopes.Refers o) ∧ Reading ((σ.mark os).declareVars [v]) [] s :=
  .update ⟨fun _ => rfl, fun _ => rfl, fun _ => rfl, fun _ => rfl, fun _ => rfl⟩

theorem enterScopeWith_binds (kind : ScopeKind) (result : Option Ty) :
    Parses (Reading σ []) (enterScopeWith kind result) fun _ => Reading (σ.enterWith kind result) [] :=
  .become ⟨fun _ => rfl, fun _ => rfl, fun _ => rfl, fun _ => rfl, fun _ => rfl⟩

theorem enterScope_binds (kind : ScopeKind) :
    Parses (Reading σ []) (enterScope kind) fun _ => Reading (σ.enterWith kind σ.scopes.result?) [] :=
  .become ⟨fun _ => rfl, fun _ => rfl, fun _ => rfl, fun _ => rfl, fun _ => rfl⟩

/-- In a scope that is left without problems no variable is unread. -/
theorem leaveScope_used (P : State → Prop) : Parses P leaveScope fun _ s =>
    ∃ s₀, P s₀ ∧ s₀.scopes.unused = [] ∧ s = s₀.leave := by
  have hdrop (t : State) : Parses (fun s => P s ∧ s = t) dropScope fun _ s => P t ∧ s = t.leave :=
    .step (fun _ => rfl) fun s ⟨hs, heq⟩ => by subst heq; exact ⟨hs, rfl⟩
  refine Parses.here.bind fun t => (hdrop t).bind fun _ => ?_
  cases hunused : t.scopes.unused with
  | nil => exact .pure fun s hs => ⟨t, hs.1, hunused, hs.2⟩
  | cons v unused =>
    exact .reportThen (.reportAt _ _) <|
      (Parses.forM (P := fun _ => False) (fun _ => .reportAt _ _) unused).post fun _ _ => False.elim

theorem closeBlock_binds : Parses (fun s => φ ∧ OpenBlock σ kind result vars b s) leaveScope fun _ s =>
    (φ ∧ BlockBound σ vars b) ∧ Reading (σ.mark (Block.free vars b)) [] s := by
  refine (leaveScope_used _).post fun _ s hs => ?_
  obtain ⟨s₀, ⟨hφ, hopen⟩, hused, rfl⟩ := hs
  exact ⟨⟨hφ, hopen.bound hused⟩, hopen.leave⟩

/-! ### Declarations -/

theorem declProblem?_eq_none {name : String} {allowAnonymous : Bool}
    (h : s.declProblem? name allowAnonymous = none) : s.scopes.declares name = false ∧ ¬ s.Taken name := by
  unfold State.declProblem? at h
  split at h
  · cases h
  next hglobal =>
  split at h
  · cases h
  next hdeclares =>
  split at h
  · cases h
  next hfunc => exact ⟨Bool.not_eq_true _ ▸ hdeclares, fun ht => ht.elim hglobal hfunc⟩

theorem Reading.fresh (h : Reading σ os s) (hname : s.scopes.declares v.name = false ∧ ¬ s.Taken v.name) :
    σ.Fresh [v] := by
  refine .singleton ⟨?_, ?_⟩
  · rw [← Scopes.declares_markAll, ← h.scopes]
    exact hname.1
  · have htaken : s.site.Taken v.name = (σ.mark os).site.Taken v.name :=
      congrArg (State.Taken · v.name) h.site
    exact fun ht => hname.2 (htaken.symm.mp ht)

theorem checkDecl_binds (v : Var) (allowAnonymous : Bool) :
    Parses (Reading σ os) (checkDecl v allowAnonymous) fun b s =>
      (b = true ∧ σ.Fresh [v]) ∧ Reading σ os s := by
  refine Parses.here.bind fun t => ?_
  split
  · next hnone =>
    refine .pure fun s hs => ⟨⟨rfl, hs.1.fresh ?_⟩, hs.1⟩
    rw [hs.2]
    exact declProblem?_eq_none hnone
  · exact .reportThen (.reportAt _ _) (.pure fun _ => False.elim)

/-! ### Statements without blocks -/

/-- The statement has been read, and what is in it has been marked and declared. -/
structure Bound (σ : State) (stmt : Stmt) (s : State) : Prop where
  bound : StmtBound σ stmt
  reading : Reading (σ.after stmt) [] s

instance (σ : State) (stmt : Stmt) : Stable (Bound σ stmt) where
  of_alike h hs := ⟨hs.bound, Stable.of_alike h hs.reading⟩

instance {ι : Type} (P : ι → State → Prop) [∀ i, Stable (P i)] : Stable fun s => ∃ i, P i s where
  of_alike h := fun ⟨i, hi⟩ => ⟨i, Stable.of_alike h hi⟩

/-- The statement declares nothing, and is closed where its variables refer to something. -/
structure IsPlain (stmt : Stmt) : Prop where
  declared : stmt.declared? = none
  closed : ∀ {taken around}, (∀ o ∈ stmt.free, o.Refers around) → stmt.Closed taken around

/-- Nothing is declared by a statement. -/
theorem Bound.of_closed (hdeclared : stmt.declared? = none)
    (hclosed : ∀ {taken around}, σ.Within taken around → stmt.Closed taken around)
    (h : Reading (σ.mark stmt.free) [] s) : Bound σ stmt s := by
  refine ⟨⟨hclosed, ?_⟩, ?_⟩
  · rw [hdeclared]
    exact .nil _
  · rw [State.after, hdeclared]
    exact h

theorem IsPlain.bound (hplain : IsPlain stmt) (h : Reading σ stmt.free s) : Bound σ stmt s :=
  .of_closed hplain.declared (fun hw => hplain.closed fun o ho => hw.refers (h.refers o ho)) h.rebase.2

/-- A declaration whose value has been read before the variable is declared. -/
theorem Bound.of_decl (hdeclared : stmt.declared? = some v)
    (hclosed : ∀ {taken around}, (∀ o ∈ stmt.free, o.Refers around) → stmt.Closed taken around)
    (hfresh : σ.Fresh [v]) (hrefers : ∀ o ∈ stmt.free, σ.scopes.Refers o)
    (h : Reading ((σ.mark stmt.free).declareVars [v]) [] s) : Bound σ stmt s := by
  refine ⟨⟨fun hw => hclosed fun o ho => hw.refers (hrefers o ho), ?_⟩, ?_⟩
  · rw [hdeclared]
    exact hfresh
  · rw [State.after, hdeclared]
    exact h

theorem occurrences_zeroValue (ty : Ty) (token : Token) : (zeroValue ty token).occurrences = [] := by
  unfold zeroValue
  split <;> rfl

section
variable {P : State → Prop} [Stable P]

theorem typedVar_parses : Parses P typedVar fun r s =>
    (r.1.ty.kind ≠ .illegal ∧ r.2.occurrences = []) ∧ P s := by
  refine Parses.peek.bind fun token => (Parses.move State.alike_advance).bind fun _ =>
    (Parses.move State.alike_advance).bind fun _ => type_parses.bind fun ty =>
    Parses.peek.bind fun here => ?_
  dsimp only
  split
  · exact .reportThen (.reportAt _ _) (.pure fun _ => False.elim)
  · next hk => exact .pure fun s hs => ⟨⟨hk, occurrences_zeroValue ty here⟩, hs⟩

theorem expect_parses (expected : TokenKind) : Parses P (expect expected) fun _ => P :=
  (Parses.expect expected).post fun _ _ => And.right

theorem blockEnd_parses : Parses P blockEnd fun _ => P :=
  (expect_parses _).bind fun _ => (Parses.move State.alike_advance).bind fun _ => Parses.peek.bind fun _ =>
    (Parses.move State.alike_nextLine).bind fun _ => .pure fun _ => id

end

theorem typedDecl_binds : Parses (Reading σ []) typedDecl (Bound σ) := by
  have hend (v : Var) (value : Expr) : Parses (fun s => (value.occurrences = [] ∧ σ.Fresh [v]) ∧
      Reading (σ.declareVars [v]) [] s) (do
      let comment ← comment?
      nextLine
      return Stmt.typedDecl v.token comment v value) (Bound σ) := by
    refine Parses.peek.bind fun comment => (Parses.move State.alike_nextLine).bind fun _ =>
      .pure fun s hs => ?_
    obtain ⟨⟨hvalue, hfresh⟩, hs⟩ := hs
    have hfree : Stmt.free (.typedDecl v.token comment v value) = [] := hvalue
    refine .of_decl rfl id hfresh ?_ ?_ <;> rw [hfree]
    · nofun
    · exact hs
  refine typedVar_parses.bind fun r => ?_
  obtain ⟨v, value⟩ := r
  -- a type that is none and a name that cannot be declared have been reported by now
  dsimp only
  split
  · refine (checkDecl_binds v false).frame.bind fun b => ?_
    split
    · refine (declareVar_binds v).frame.frame.bind fun _ => Parses.expectLineEnd.bind fun _ => ?_
      refine (hend v value).pre fun s hs => ?_
      obtain ⟨⟨-, hvalue⟩, ⟨-, hfresh⟩, -, hs⟩ := hs
      exact ⟨⟨hvalue, hfresh⟩, hs⟩
    · next hb => exact (hend v value).pre fun s hs => absurd hs.2.1.1 hb
  · next hk => exact (hend v value).pre fun s hs => absurd hs.1.1 hk

theorem inferredDecl_binds : Tries (Reading σ []) inferredDecl (Bound σ) := by
  refine Parses.bind (Q := fun r s => ∃ stmt, r = some stmt ∧ Bound σ stmt s) ?_ fun r => ?_
  · show Tries _ _ _
    -- the value is read before the variable is declared, and so does not refer to it
    refine Tries.peek.bind fun token => (Tries.move State.alike_advance).bind fun _ =>
      (Tries.move State.alike_advance).bind fun _ => Tries.peek.bind fun valueToken =>
      (Tries.lift (topLevelExpr_extends σ [])).bind fun value? => ?_
    split
    · next value =>
      refine .pre (P := Reading σ value.occurrences) (.ifFail (.fail _) ?_) fun s hs => ?_
      · refine (Tries.lift (checkDecl_binds _ false)).bind fun b =>
          .unlessFail (fun hb => .failure fun s hs => hb hs.1.1) <|
          (Tries.lift (declareVar_binds _).frame).bind fun _ =>
          (Tries.lift Parses.expectLineEnd).bind fun _ =>
          Tries.peek.bind fun comment => .pure fun s hs => ?_
        obtain ⟨⟨-, hfresh⟩, hrefers, hs⟩ := hs
        have hfree (m : Token) : Stmt.free (.inferredDecl m comment
            ⟨token, token.literal, value.infer.ty.infer.unfixed⟩ value.infer) = value.occurrences :=
          Expr.occurrences_infer value
        refine .of_decl rfl id hfresh ?_ ?_ <;> rw [hfree]
        · exact hrefers
        · exact hs
      · simpa using hs
    · exact .fail _
  · exact (Parses.move State.alike_nextLine).bind fun _ => .pure fun _ => id

/-! ### Simple statements -/

theorem emptyLine_binds : Parses (Reading σ []) emptyLine (Bound σ) := by
  have hend (token : Token) (comment : Option String) : Parses (Reading σ []) (do
      advance
      return Stmt.empty token comment) (Bound σ) :=
    (Parses.move State.alike_advance).bind fun _ =>
    .pure fun _ hs => IsPlain.bound ⟨rfl, fun _ => trivial⟩ hs
  refine Parses.peek.bind fun token => Parses.peek.bind fun comment => ?_
  dsimp only
  split
  · exact (Parses.move State.alike_advance).bind fun _ => hend token comment
  · exact hend token comment

theorem targetWithin_extends (token : Token) (fuel : Nat) (target : Expr) :
    Extends target.occurrences Expr.occurrences (targetWithin token fuel target) := by
  induction fuel generalizing target with
  | zero => exact .pure rfl
  | succ fuel ih =>
    refine Extends.peek.bind fun k => ?_
    split
    · exact .ifFail (fun _ => .failAt _ _) <| (indexOrSlice_extends nested_extends false).bind fun target =>
        ih target
    · exact field_extends.bind fun target => ih target
    · exact .pure rfl

theorem assignTarget_tries :
    Tries (Reading σ []) assignTarget fun target => Reading σ target.occurrences := by
  refine Tries.peek.bind fun token => (Tries.move State.alike_advance).bind fun _ =>
    .ifFail (.failAt _ _) <| (Tries.lift (readVar?_parses token.literal)).bind fun v? => ?_
  split
  · next v =>
    refine .pre (P := Reading σ (Expr.ofVar v token).occurrences) ?_ fun s hs => hs v rfl
    exact Tries.get.bind fun s => targetWithin_extends token s.fuel (.ofVar v token) σ []
  · exact .failAt _ _

theorem assignment_binds : Tries (Reading σ []) assignment (Bound σ) := by
  refine .orNextLine <| Tries.peek.bind fun token => Tries.peek.bind fun b => .ifFail (.fail _) <|
    assignTarget_tries.bind fun target => (Tries.lift (expect_parses _)).bind fun _ =>
    (Tries.move State.alike_advance).bind fun _ =>
    (topLevelExpr_extends.under target.occurrences σ []).bind fun value =>
    .unlessFail (fun _ => .lift (.reportAt _ _)) <| (Tries.lift Parses.expectLineEnd).bind fun _ =>
    Tries.peek.bind fun comment => (Tries.move State.alike_nextLine).bind fun _ => .pure fun s hs => ?_
  have hfree : Stmt.free (.assign token comment target (value.wrap target.ty)) =
      target.occurrences ++ value.occurrences :=
    congrArg (target.occurrences ++ ·) (Expr.occurrences_wrap _ value)
  refine IsPlain.bound ⟨rfl, id⟩ ?_
  rw [hfree]
  exact hs

theorem callStmt_binds : Tries (fun s => Reading σ [] s ∧ s.isFunc s.cur.literal) callStmt (Bound σ) := by
  refine .orNextLine <| (call_tries nested_extends σ []).bind fun c =>
    (Tries.lift Parses.expectLineEnd).bind fun _ =>
    Tries.peek.bind fun comment => (Tries.move State.alike_nextLine).bind fun _ => .pure fun s hs => ?_
  exact IsPlain.bound ⟨rfl, id⟩ hs

theorem returnEnd_binds (token valueToken : Token) (value : Option Expr) (ty : Ty) :
    Parses (Reading σ (Expr.optionOccurrences value)) (returnEnd token valueToken value ty) (Bound σ) := by
  have hend (value : Option Expr) : Parses (Reading σ (Expr.optionOccurrences value)) (do
      let comment ← comment?
      nextLine
      return Stmt.ret token comment value) (Bound σ) :=
    Parses.peek.bind fun comment => (Parses.move State.alike_nextLine).bind fun _ =>
      .pure fun s hs => IsPlain.bound ⟨rfl, id⟩ hs
  have hwrap (result : Ty) :
      Expr.optionOccurrences (value.map (Expr.wrap result)) = Expr.optionOccurrences value := by
    cases value with
    | none => rfl
    | some e => exact Expr.occurrences_wrap result e
  refine Parses.get.bind fun s => ?_
  dsimp only
  split
  · exact .reportThen (.reportAt _ _) (hend value)
  next result _ =>
  split
  · have hvalue := hend (value.map (Expr.wrap result))
    rwa [hwrap] at hvalue
  · split
    · exact .reportThen (.reportAt _ _) (hend value)
    · exact .reportThen (.reportAt _ _) (hend value)

theorem returnStmt_binds : Parses (Reading σ []) returnStmt (Bound σ) := by
  refine Parses.peek.bind fun token => (Parses.move State.alike_advance).bind fun _ =>
    Parses.peek.bind fun valueToken => Parses.peek.bind fun ended => ?_
  dsimp only
  split
  · exact returnEnd_binds token valueToken none _
  · refine Parses.bind (topLevelExpr_extends σ []) fun value => ?_
    cases value with
    | none => exact (returnEnd_binds token valueToken none _).pre fun s ⟨e, he, _⟩ => by cases he
    | some e =>
      refine Parses.expectLineEnd.bind fun _ =>
        (returnEnd_binds token valueToken (some e) _).pre fun s hs => ?_
      simpa [Expr.optionOccurrences] using hs

theorem breakStmt_binds : Parses (Reading σ []) breakStmt (Bound σ) := by
  have hend (token : Token) : Parses (Reading σ []) (do
      advance
      expectLineEnd
      let comment ← comment?
      nextLine
      return Stmt.brk token comment) (Bound σ) :=
    (Parses.move State.alike_advance).bind fun _ => Parses.expectLineEnd.bind fun _ =>
      Parses.peek.bind fun comment => (Parses.move State.alike_nextLine).bind fun _ =>
      .pure fun _ hs => IsPlain.bound ⟨rfl, fun _ => trivial⟩ hs
  refine Parses.peek.bind fun token => Parses.get.bind fun s => ?_
  dsimp only
  split
  · exact hend token
  · exact .reportThen (.reportHere _) (hend token)

/-! ### Blocks -/

/-- A parser for nested blocks reads statements that are bound one after another. -/
def BlocksBind (block : Blocks) : Prop :=
  ∀ (σ : State) (ends : List TokenKind), Parses (Reading σ []) (block ends) fun b s =>
    StmtsBound σ b.stmts ∧ Reading (σ.afterAll b.stmts) [] s

theorem condition_parses : Parses (Reading σ []) condition.run fun e? s =>
    (∃ e, e? = some e) ∧ Reading σ (Expr.optionOccurrences e?) s := by
  have hread : Tries (Reading σ []) condition fun e => Reading σ e.occurrences :=
    Tries.peek.bind fun token => Tries.bind (topLevelExpr_extends σ []) fun e =>
      (Tries.lift Parses.expectLineEnd).bind fun _ =>
      .unlessFail (fun _ => .lift (.reportAt _ _)) (.pure fun _ => id)
  refine Parses.post hread fun e? s hs => ?_
  obtain ⟨e, rfl, hs⟩ := hs
  exact ⟨⟨e, rfl⟩, hs⟩

/-- The branch is closed where it stands. -/
def BranchBound (σ : State) (b : Branch) : Prop :=
  ∀ {taken around}, σ.Within taken around → Branch.Closed taken around b

theorem BlockBound.withComment (h : BlockBound σ vars b) (comment : Option String) :
    BlockBound σ vars (b.withComment comment) := by
  cases b
  exact h

theorem BranchBound.of_mark {branch : Branch} (h : BranchBound (σ.mark os) branch) : BranchBound σ branch :=
  fun hw => h (hw.mark os)

/-- The branches have all been read. -/
def BranchesBound (σ : State) (bs : List (Option Branch)) : Prop :=
  ∀ b? ∈ bs, ∃ b, b? = some b ∧ BranchBound σ b

namespace BranchesBound
variable {bs cs : List (Option Branch)}

theorem append (h : BranchesBound σ bs) (h' : BranchesBound σ cs) : BranchesBound σ (bs ++ cs) :=
  fun b? hb => (List.mem_append.1 hb).elim (h b?) (h' b?)

theorem of_mark (h : BranchesBound (σ.mark os) bs) : BranchesBound σ bs :=
  fun b? hb => (h b? hb).imp fun _ ⟨heq, hbound⟩ => ⟨heq, hbound.of_mark⟩

theorem mapM_eq (h : BranchesBound σ bs) : bs.mapM id = some bs.reduceOption := by
  induction bs with
  | nil => rfl
  | cons b? bs ih =>
    obtain ⟨⟨b, rfl, -⟩, hbs⟩ := List.forall_mem_cons.1 h
    rw [List.mapM_cons, ih hbs]
    rfl

theorem closed (h : BranchesBound σ bs) {taken : String → Prop} {around : List Var}
    (hw : σ.Within taken around) : Branch.AllClosed taken around bs.reduceOption := by
  induction bs with
  | nil => trivial
  | cons b? bs ih =>
    obtain ⟨⟨b, rfl, hb⟩, hbs⟩ := List.forall_mem_cons.1 h
    exact ⟨hb hw, ih hbs⟩

end BranchesBound

/-- The block of a branch is read after its condition. -/
theorem BranchBound.mk {e : Expr} (token : Token) (comment : Option String)
    (hrefers : ∀ o ∈ e.occurrences, σ.scopes.Refers o) (hbody : BlockBound (σ.mark e.occurrences) [] b) :
    BranchBound σ (.mk token comment e b) :=
  fun hw => ⟨fun o ho => hw.refers (hrefers o ho), hbody (hw.mark _)⟩

section
variable {block : Blocks} (hblock : BlocksBind block)
include hblock

/-- A block after the head of the construct that opened its scope. -/
theorem block_opens (ends : List TokenKind) (hfresh : φ → (σ.enterWith kind result).Fresh vars) :
    Parses (fun s => φ ∧ Reading ((σ.enterWith kind result).declareVars vars) [] s) (block ends) fun b s =>
      φ ∧ OpenBlock σ kind result vars b s :=
  (hblock _ ends).frame.post fun _ _ hs => ⟨hs.1, hfresh hs.1, hs.2.1, hs.2.2⟩

/-- A condition and the block after it, in a scope that has been opened for them. -/
theorem headed_opens (ends : List TokenKind) {m : Option Expr → Option String → Block → Parse α}
    {Q : α → State → Prop} (hm : ∀ e? comment b, Parses (fun s =>
      ((∃ e, e? = some e) ∧ ∀ o ∈ Expr.optionOccurrences e?, σ.scopes.Refers o) ∧
        OpenBlock (σ.mark (Expr.optionOccurrences e?)) kind result [] b s) (m e? comment b) Q) :
    Parses (Reading (σ.enterWith kind result) []) (do
      let e? ← condition.run
      let comment ← comment?
      nextLine
      let body ← block ends
      m e? comment body) Q := by
  refine condition_parses.bind fun e? => Parses.peek.bind fun comment =>
    (Parses.move State.alike_nextLine).bind fun _ =>
    Parses.bind ?_ fun b => hm e? comment b
  refine (block_opens hblock ends fun _ => .nil _).pre fun s hs => ?_
  obtain ⟨hrefers, hopen⟩ := hs.2.intoScope
  exact ⟨⟨hs.1, hrefers⟩, hopen⟩

theorem whileStmt_binds : Tries (Reading σ []) (whileStmt block) (Bound σ) := by
  show Parses _ _ _
  refine Parses.peek.bind fun token => (Parses.move State.alike_advance).bind fun _ =>
    (enterScope_binds .whileLoop).bind fun _ => headed_opens hblock _ fun e? comment b =>
    closeBlock_binds.bind fun _ => blockEnd_parses.bind fun endComment => .pure fun s hs => ?_
  obtain ⟨⟨⟨⟨e, rfl⟩, hrefers⟩, hbody⟩, hs⟩ := hs
  refine ⟨_, rfl, .of_closed rfl (BranchBound.mk token comment hrefers (hbody.withComment endComment)) ?_⟩
  rw [← State.mark_append, ← Block.free_withComment [] b endComment] at hs
  exact hs

theorem scopedBranch_binds : Parses (Reading σ []) (scopedBranch block) fun b? s =>
    BranchesBound σ [b?] ∧ Reading (σ.mark (Branch.freeAll [b?].reduceOption)) [] s := by
  have hbranch : Parses (Reading (σ.enterWith .branch σ.scopes.result?) []) (branch block [.end, .eof, .else])
      fun b? s => ∃ token comment e b, b? = some (.mk token comment e b) ∧
        (∀ o ∈ e.occurrences, σ.scopes.Refers o) ∧
        OpenBlock (σ.mark e.occurrences) .branch σ.scopes.result? [] b s := by
    refine Parses.peek.bind fun token => (Parses.move State.alike_advance).bind fun _ =>
      headed_opens hblock _ fun e? comment b => .pure fun s hs => ?_
    obtain ⟨⟨⟨e, rfl⟩, hrefers⟩, hs⟩ := hs
    exact ⟨token, comment, e, b, rfl, hrefers, hs⟩
  refine (enterScope_binds .branch).bind fun _ => hbranch.bind fun b? => (leaveScope_used _).bind fun _ =>
    .pure fun s hs => ?_
  obtain ⟨s₀, ⟨token, comment, e, b, rfl, hrefers, hopen⟩, hused, rfl⟩ := hs
  refine ⟨List.forall_mem_singleton.2 ⟨_, rfl, BranchBound.mk token comment hrefers (hopen.bound hused)⟩, ?_⟩
  have hs := hopen.leave
  rw [← State.mark_append] at hs
  rwa [← List.append_nil (_ ++ _)] at hs

theorem moreBranches_binds (fuel : Nat) (done : Array (Option Branch)) :
    Parses (fun s => BranchesBound σ done.toList ∧
        Reading (σ.mark (Branch.freeAll done.toList.reduceOption)) [] s)
      (moreBranches block fuel done) fun bs s =>
        BranchesBound σ bs ∧ Reading (σ.mark (Branch.freeAll bs.reduceOption)) [] s := by
  induction fuel generalizing done with
  | zero => exact .pure fun _ => id
  | succ fuel ih =>
    refine Parses.get.bind fun s => ?_
    split
    · refine (Parses.move State.alike_advance).bind fun _ =>
        (scopedBranch_binds hblock).frame.bind fun b? =>
        (ih (done.push b?)).pre fun s hs => ?_
      obtain ⟨hdone, hb, hs⟩ := hs
      rw [Array.toList_push, List.reduceOption_append, Branch.freeAll_append, State.mark_append]
      exact ⟨hdone.append hb.of_mark, hs⟩
    · exact .pure fun _ => id

theorem otherwise_binds : Parses (Reading σ []) (otherwise block) fun b? s =>
    (∀ b, b? = some b → BlockBound σ [] b) ∧ Reading (σ.mark (Block.lastFree b?)) [] s := by
  refine Parses.peek.bind fun k => ?_
  split
  · exact .pure fun s hs => ⟨nofun, hs⟩
  · refine (Parses.move State.alike_advance).bind fun _ => Parses.expectLineEnd.bind fun _ =>
      Parses.peek.bind fun comment => (Parses.move State.alike_nextLine).bind fun _ =>
      (enterScope_binds .branch).bind fun _ =>
      Parses.bind (Q := fun b s => True ∧ OpenBlock σ .branch σ.scopes.result? [] b s) ?_ fun b =>
      closeBlock_binds.bind fun _ => .pure fun s hs => ?_
    · exact (block_opens hblock (φ := True) _ fun _ => .nil _).pre fun s hs => ⟨trivial, hs⟩
    · refine ⟨fun b' hb => ?_, ?_⟩
      · cases hb
        exact BlockBound.withComment hs.1.2 comment
      · rw [Block.lastFree, Block.free_withComment]
        exact hs.2

theorem ifStmt_binds : Tries (Reading σ []) (ifStmt block) (Bound σ) := by
  show Parses _ _ _
  refine Parses.peek.bind fun token => (scopedBranch_binds hblock).bind fun first? =>
    Parses.get.bind fun s =>
    Parses.bind ((moreBranches_binds (σ := σ.mark (Branch.freeAll [first?].reduceOption)) hblock
      s.fuel #[]).frame.pre fun s hs => ⟨hs.1, nofun, hs.2⟩) fun more? =>
    (otherwise_binds hblock).frame.frame.bind fun last => blockEnd_parses.bind fun comment =>
    .pure fun s hs => ?_
  obtain ⟨hfirst, hmore, hlast, hs⟩ := hs
  obtain ⟨first, rfl, hbranch⟩ := hfirst _ List.mem_cons_self
  refine ⟨.cond token comment first more?.reduceOption last, ?_, .of_closed rfl (fun hw => ?_) ?_⟩
  · rw [hmore.mapM_eq]
    rfl
  · refine ⟨hbranch hw, hmore.of_mark.closed hw, ?_⟩
    cases last with
    | none => trivial
    | some b => exact hlast b rfl ((hw.mark _).mark _)
  · rw [← State.mark_append, ← State.mark_append] at hs
    simpa [Stmt.free, Branch.freeAll, List.reduceOption] using hs

end

/-! ### Loops over ranges -/

/-- The variables in a range, if there is one. -/
def rangeOccurrences (range? : Option Range) : List Occurrence :=
  (range?.map Range.occurrences).getD []

theorem stepRange_tries (first : Expr) (rest : List Expr) (token : Token) :
    Tries (Reading σ (Expr.allOccurrences (first :: rest))) (stepRange (first :: rest) token) fun range =>
      Reading σ range.occurrences := by
  unfold stepRange
  dsimp only
  split
  · exact .failAtBind _ _
  next hlen =>
  split
  · exact .failAtBind _ _
  rcases rest with _ | ⟨stop, _ | ⟨stride, _ | ⟨e, es⟩⟩⟩
  · exact .pure fun s hs => by simpa [Expr.allOccurrences, Range.occurrences, Expr.optionOccurrences] using hs
  · exact .pure fun s hs => by simpa [Expr.allOccurrences, Range.occurrences, Expr.optionOccurrences] using hs
  · exact .pure fun s hs => by simpa [Expr.allOccurrences, Range.occurrences, Expr.optionOccurrences] using hs
  · exact absurd (by simp) hlen

theorem rangeOf_parses {first : Expr} {rest : List Expr} (token : Token) :
    Parses (fun s => (1 < (first :: rest).length → first.ty.same .num) ∧
        Reading σ (Expr.allOccurrences (first :: rest)) s)
      (rangeOf first (first :: rest) token) fun r s =>
        (∃ range, r.1 = some range) ∧ Reading σ (rangeOccurrences r.1) s := by
  have hover {s : State} (hk : first.ty.kind ≠ .num)
      (hs : (1 < (first :: rest).length → first.ty.same .num) ∧
        Reading σ (Expr.allOccurrences (first :: rest)) s) :
      Reading σ (rangeOccurrences (some (.over first))) s := by
    cases rest with
    | nil =>
      have hs := hs.2
      rwa [Expr.allOccurrences, Expr.allOccurrences, List.append_nil] at hs
    | cons e es => exact absurd (Ty.kind_eq_of_same (hs.1 (by simp))) hk
  unfold rangeOf
  dsimp only
  split <;> rename_i hk
  · exact .pure fun s hs => ⟨⟨_, rfl⟩, hover (by simp [hk]) hs⟩
  · exact .pure fun s hs => ⟨⟨_, rfl⟩, hover (by simp [hk]) hs⟩
  · exact .pure fun s hs => ⟨⟨_, rfl⟩, hover (by simp [hk]) hs⟩
  · refine Parses.bind ((stepRange_tries first rest token).pre fun _ => And.right) fun r =>
      .pure fun s hs => ?_
    obtain ⟨range, rfl, hs⟩ := hs
    exact ⟨⟨range, rfl⟩, hs⟩
  · exact .reportThen (.reportHere _) (.pure fun _ => False.elim)

theorem loopVar_tries : Tries (Reading σ os) loopVar fun v? s =>
    (∀ v, v? = some v → σ.Fresh [v]) ∧ Reading σ os s := by
  refine Tries.peek.bind fun token => ?_
  dsimp only
  split
  · exact .pure fun s hs => ⟨nofun, hs⟩
  · refine (Tries.lift (checkDecl_binds _ false)).bind fun b =>
      .unlessFail (fun hb => .failure fun s hs => hb hs.1.1) <|
      (Tries.move State.alike_advance).bind fun _ => (Tries.lift (expect_parses _)).bind fun _ =>
      (Tries.move State.alike_advance).bind fun _ => .pure fun s hs => ⟨fun v hv => ?_, hs.2⟩
    obtain rfl := Option.some.inj hv
    exact hs.1.2

/-- The head of a loop that has been read has a range, and its variable can be declared. -/
structure HeadBound (σ : State) (head : EachHead) : Prop where
  var : ∀ v, head.var = some v → σ.Fresh [v]
  range : ∃ range, head.range = some range

theorem eachHead_tries : Tries (Reading σ []) eachHead fun head s =>
    HeadBound σ head ∧ Reading σ (rangeOccurrences head.range) s := by
  refine .orNextLine <| loopVar_tries.bind fun var => (Tries.require _).bind fun _ =>
    Tries.peek.bind fun token =>
    (Tries.move State.alike_advance).bind fun _ =>
    ((exprList_extends nested_extends) σ []).frame.bind fun args => ?_
  split
  · next first rest =>
    have hrest : Tries (fun s => (1 < (first :: rest).length → first.ty.same .num) ∧
        (∀ v, var = some v → σ.Fresh [v]) ∧ Reading σ (Expr.allOccurrences (first :: rest)) s) (do
        expectLineEnd
        let r ← OptionT.lift (rangeOf first (first :: rest) token)
        return (⟨var, r.1, r.2⟩ : EachHead)) fun head s =>
          HeadBound σ head ∧ Reading σ (rangeOccurrences head.range) s := by
      refine (Tries.lift Parses.expectLineEnd).bind fun _ => Tries.bind (Tries.lift <|
        (rangeOf_parses token).frame.pre (fun s hs => ⟨hs.2.1, hs.1, hs.2.2⟩)) fun r => .pure fun s hs => ?_
      exact ⟨⟨hs.1, hs.2.1⟩, hs.2.2⟩
    split
    · exact .failThen (.fail _) fun _ => hrest
    · next hnum => exact hrest.pre fun s hs => ⟨by simpa using hnum, hs⟩
  · exact .fail _

section
variable {block : Blocks} (hblock : BlocksBind block)
include hblock

theorem eachEnd_binds (token : Token) (head : EachHead) (var : Option Var)
    (hvar : ∀ v, var = some v → ∃ w, head.var = some w ∧ w.name = v.name) :
    Tries (fun s => (HeadBound (σ.enterWith .forLoop result) head ∧
        ∀ o ∈ rangeOccurrences head.range, σ.scopes.Refers o) ∧
        Reading (((σ.mark (rangeOccurrences head.range)).enterWith .forLoop result).declareVars
          var.toList) [] s)
      (eachEnd block token head var) (Bound σ) := by
  have hfresh (h : HeadBound (σ.enterWith .forLoop result) head) :
      ((σ.mark (rangeOccurrences head.range)).enterWith .forLoop result).Fresh var.toList := by
    cases var with
    | none => exact .nil _
    | some v =>
      obtain ⟨w, hw, hname⟩ := hvar v rfl
      have hdeclared := (h.var w hw).untaken w List.mem_cons_self
      rw [hname] at hdeclared
      exact .singleton hdeclared
  refine Tries.peek.bind fun comment => (Tries.move State.alike_nextLine).bind fun _ =>
    (Tries.lift (block_opens hblock _ fun h => hfresh h.1)).bind fun b =>
    (Tries.lift closeBlock_binds).bind fun _ => (Tries.lift blockEnd_parses).bind fun endComment => ?_
  split
  · next range hrange =>
    refine .pure fun s hs => ?_
    obtain ⟨⟨⟨-, hrefers⟩, hbody⟩, hs⟩ := hs
    rw [hrange] at hrefers hs
    refine .of_closed rfl (fun hw => ⟨fun o ho => hw.refers (hrefers o ho), ?_⟩) ?_
    · exact BlockBound.withComment hbody endComment (hw.mark _)
    · rw [← State.mark_append, ← Block.free_withComment var.toList b endComment] at hs
      exact hs
  · next hnone => exact .failure fun s hs => hs.1.1.1.range.elim hnone

theorem eachBody_binds (token : Token) :
    Tries (Reading (σ.enterWith .forLoop result) []) (eachBody block token) (Bound σ) := by
  unfold eachBody
  refine (Tries.move State.alike_advance).bind fun _ => eachHead_tries.bind fun head => ?_
  have hvar : ∀ v, (head.var.map fun v => { v with ty := head.ty }) = some v →
      ∃ w, head.var = some w ∧ w.name = v.name := by
    intro v hv
    obtain ⟨w, hw, rfl⟩ := Option.map_eq_some_iff.1 hv
    exact ⟨w, hw, rfl⟩
  -- only the name of the variable is known before the range is read, and its type comes from the range
  dsimp only
  revert hvar
  generalize (head.var.map fun v => { v with ty := head.ty }) = var
  intro hvar
  refine Tries.pre (P := fun s => (HeadBound (σ.enterWith .forLoop result) head ∧
      ∀ o ∈ rangeOccurrences head.range, σ.scopes.Refers o) ∧
      Reading ((σ.mark (rangeOccurrences head.range)).enterWith .forLoop result) [] s) ?_ fun s hs => ?_
  · have hrest := @eachEnd_binds σ result block hblock token head var hvar
    cases var with
    | none =>
      show Tries _ (pure PUnit.unit >>= _) _
      rw [pure_bind]
      exact hrest
    | some v =>
      exact (Tries.lift (declareVar_binds v).frame).bind fun _ => hrest.pre fun s hs => ⟨hs.1, hs.2.2⟩
  · obtain ⟨hrefers, hread⟩ := hs.2.intoScope
    exact ⟨⟨hs.1, hrefers⟩, hread⟩

theorem eachStmt_binds : Tries (Reading σ []) (eachStmt block) (Bound σ) := by
  show Parses _ _ _
  refine Parses.peek.bind fun token => (enterScope_binds .forLoop).bind fun _ =>
    Parses.bind (eachBody_binds hblock token) fun r => ?_
  cases r with
  | none =>
    have hdrop : Parses (fun _ => False) dropScope fun _ _ => False := .step (fun _ => rfl) fun _ => id
    have hnone : Parses (fun _ => False) (do dropScope; return (none : Option Stmt)) fun r s =>
        ∃ stmt, r = some stmt ∧ Bound σ stmt s := hdrop.bind fun _ => .pure fun _ => False.elim
    exact hnone.pre fun s ⟨_, heq, _⟩ => by cases heq
  | some stmt => exact .pure fun s hs => hs

/-- A statement has been read, and what is in it is declared; or there is none, and nothing is. -/
def Passed (σ : State) (stmt? : Option Stmt) (s : State) : Prop :=
  match stmt? with
  | some stmt => Bound σ stmt s
  | none => Reading σ [] s

theorem statement_binds : Parses (Reading σ []) (statement block).run (Passed σ) := by
  unfold statement
  refine Parses.liftBind Parses.here fun t => ?_
  -- the cases follow the first token; the state is remembered only for the name of a function that is
  -- called
  have htries {m : Attempt Stmt} (hm : Tries (Reading σ []) m (Bound σ)) :
      Parses (fun s => Reading σ [] s ∧ s = t) m.run (Passed σ) :=
    Parses.conseq hm (fun _ => And.left) fun _ _ ⟨_, heq, hs⟩ => heq ▸ hs
  have hparses {m : Parse Stmt} (hm : Parses (Reading σ []) m (Bound σ)) :
      Parses (fun s => Reading σ [] s ∧ s = t) (liftM m : Attempt Stmt).run (Passed σ) :=
    htries (Tries.lift hm)
  split
  · exact (Parses.liftBind (Parses.move (P := Reading σ []) State.alike_advance) fun _ =>
      .pure fun _ hs => hs).pre fun _ => And.left
  · exact hparses emptyLine_binds
  · exact hparses emptyLine_binds
  · split
    · exact htries assignment_binds
    · exact htries assignment_binds
    · exact hparses typedDecl_binds
    · exact htries inferredDecl_binds
    · split
      · next hfunc =>
        refine Parses.conseq callStmt_binds (fun s hs => ⟨hs.1, ?_⟩) fun _ _ ⟨_, heq, hs⟩ => heq ▸ hs
        rw [hs.2]
        exact hfunc
      · split
        · exact htries assignment_binds
        · exact htries (Tries.orNextLine (.fail _))
  · exact hparses returnStmt_binds
  · exact hparses breakStmt_binds
  · exact htries (eachStmt_binds hblock)
  · exact htries (whileStmt_binds hblock)
  · exact htries (ifStmt_binds hblock)
  · exact htries (Tries.orNextLine (.fail _))

theorem stmtsWithin_binds (ends : List TokenKind) (fuel : Nat) (done : Array Stmt) (terminated : Bool) :
    Parses (fun s => StmtsBound σ done.toList ∧ Reading (σ.afterAll done.toList) [] s)
      (stmtsWithin block ends fuel done terminated) fun stmts s =>
        StmtsBound σ stmts ∧ Reading (σ.afterAll stmts) [] s := by
  induction fuel generalizing done terminated with
  | zero => exact .pure fun _ => id
  | succ fuel ih =>
    refine Parses.peek.bind fun token => ?_
    split
    · exact .pure fun _ => id
    refine (statement_binds hblock).frame.bind fun stmt? => ?_
    cases stmt? with
    | none => exact ih done terminated
    | some stmt =>
    dsimp only
    split
    · exact .reportThen (.reportAt _ _) (ih done terminated)
    · refine (ih (done.push stmt) _).pre fun s hs => ?_
      rw [Array.toList_push, State.afterAll_concat]
      exact ⟨hs.1.concat hs.2.bound, hs.2.reading⟩

end

theorem blockWithin_binds (fuel : Nat) : BlocksBind (blockWithin fuel) := by
  induction fuel with
  | zero => exact fun σ ends => .pure fun s hs => ⟨trivial, hs⟩
  | succ fuel ih =>
    intro σ ends
    have hend (token : Token) (stmts : List Stmt) :
        Parses (fun s => StmtsBound σ stmts ∧ Reading (σ.afterAll stmts) [] s)
          (return Block.mk token none stmts : Parse Block) fun b s =>
            StmtsBound σ b.stmts ∧ Reading (σ.afterAll b.stmts) [] s :=
      .pure fun _ => id
    refine Parses.peek.bind fun token => Parses.get.bind fun s =>
      Parses.bind ((stmtsWithin_binds ih ends s.fuel #[] false).pre fun s hs => ⟨trivial, hs⟩) fun stmts => ?_
    dsimp only
    split
    · exact .reportThen (.reportAt _ _) (hend token stmts)
    · exact hend token stmts

theorem block_binds : BlocksBind block :=
  fun _ ends => Parses.get.bind fun s => blockWithin_binds s.fuel _ ends

end Parsing

end TinyScript
