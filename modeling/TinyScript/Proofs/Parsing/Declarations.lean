import TinyScript.Parsing.Statement
import TinyScript.Proofs.Parsing.Expressions

/-!
# Declarations

What is declared after a statement (`Outline.after`), and how what is declared in the source relates
to the blocks that are open when it runs (`Outline.Opens`) and to what is declared in the whole program
(`Outline.KnownTo`). A loop opens one scope for its variable and its body, where two blocks are open
when it runs, so only look-ups are compared.
-/

namespace TinyScript.Parsing

namespace Outline

/-- Declares a variable in the innermost scope. -/
def declare (o : Outline) (v : Var) : Outline :=
  { o with scopes := o.scopes.declare v true }

/-- Opens a scope. -/
def enterWith (o : Outline) (kind : ScopeKind) (result : Option Ty) : Outline :=
  { o with scopes := o.scopes.enterWith kind result }

/-- Opens a scope that has the result type of the one around it. -/
def enter (o : Outline) (kind : ScopeKind) : Outline :=
  o.enterWith kind o.scopes.result?

/-- Closes the innermost scope. -/
def leave (o : Outline) : Outline :=
  { o with scopes := o.scopes.tail }

/-- What is declared after a statement. -/
def after (o : Outline) : Stmt → Outline
  | .typedDecl _ _ v _ | .inferredDecl _ _ v _ => o.declare v
  | _ => o

/-- What is declared after statements. -/
def afterAll (o : Outline) (stmts : List Stmt) : Outline :=
  stmts.foldl after o

end Outline

/-- The open blocks after statements. -/
def scopingsAfter (L : List Scoping) (stmts : List Stmt) : List Scoping :=
  stmts.foldl (fun L s => s.scopings L) L

namespace Outline
variable {o : Outline} {v : Var} {stmt : Stmt} {F : Sigs} {G : Vars} {L : List Scoping}

@[simp] theorem leave_enterWith (o : Outline) (kind : ScopeKind) (result : Option Ty) :
    (o.enterWith kind result).leave = o := rfl

theorem declares_enterWith (o : Outline) (kind : ScopeKind) (result : Option Ty) (name : String) :
    (o.enterWith kind result).scopes.declares name = false := by
  simp [enterWith, Scopes.enterWith, Scopes.declares, Scope.declares]

@[simp] theorem funcs_declare : (o.declare v).funcs = o.funcs := rfl

@[simp] theorem leave_declare : (o.declare v).leave = o.leave := by
  unfold declare Scopes.declare leave
  split
  · rfl
  · cases o.scopes <;> rfl

@[simp] theorem result?_declare : (o.declare v).scopes.result? = o.scopes.result? := by
  unfold declare Scopes.declare
  dsimp only
  split
  · rfl
  · cases o.scopes <;> rfl

@[simp] theorem inLoop_declare : (o.declare v).scopes.inLoop = o.scopes.inLoop := by
  unfold declare Scopes.declare
  dsimp only
  split
  · rfl
  · cases o.scopes <;> rfl

theorem after_eq (o : Outline) (stmt : Stmt) : o.after stmt = o ∨ ∃ v, o.after stmt = o.declare v := by
  cases stmt with
  | typedDecl _ _ v _ => exact .inr ⟨v, rfl⟩
  | inferredDecl _ _ v _ => exact .inr ⟨v, rfl⟩
  | _ => exact .inl rfl

theorem afterAll_concat (o : Outline) (stmts : List Stmt) (stmt : Stmt) :
    o.afterAll (stmts ++ [stmt]) = (o.afterAll stmts).after stmt := by
  simp [afterAll]

/-- What no declaration changes is not changed by statements. -/
theorem afterAll_eq {α : Type} {f : Outline → α} (hf : ∀ o v, f (declare o v) = f o) (o : Outline)
    (stmts : List Stmt) : f (o.afterAll stmts) = f o := by
  induction stmts generalizing o with
  | nil => rfl
  | cons stmt stmts ih =>
    refine (ih (o.after stmt)).trans ?_
    rcases after_eq o stmt with h | ⟨v, h⟩ <;> rw [h]
    exact hf o v

@[simp] theorem leave_afterAll (stmts : List Stmt) : (o.afterAll stmts).leave = o.leave :=
  afterAll_eq (fun _ _ => leave_declare) o stmts

@[simp] theorem result?_afterAll (stmts : List Stmt) :
    (o.afterAll stmts).scopes.result? = o.scopes.result? :=
  afterAll_eq (f := (·.scopes.result?)) (fun _ _ => result?_declare) o stmts

@[simp] theorem inLoop_afterAll (stmts : List Stmt) :
    (o.afterAll stmts).scopes.inLoop = o.scopes.inLoop :=
  afterAll_eq (f := (·.scopes.inLoop)) (fun _ _ => inLoop_declare) o stmts

@[simp] theorem funcs_afterAll (stmts : List Stmt) : (o.afterAll stmts).funcs = o.funcs :=
  afterAll_eq (f := funcs) (fun _ _ => rfl) o stmts

/-! ### The open blocks -/

/-- The variables of the scopes inside the outermost one are those of the blocks `L`. -/
def Opens (o : Outline) (L : List Scoping) : Prop :=
  ∃ inner outermost, o.scopes = inner ++ [outermost] ∧ (L = [] ↔ inner = []) ∧
    ∀ name, Scopes.ty? inner name = L.findSome? (·.lookup name)

/-- The functions `F` and the globals `G` of the whole program are among or include what is known. -/
structure KnownTo (o : Outline) (F : Sigs) (G : Vars) : Prop where
  funcs : ∀ name sig, F name = some sig → o.func? name = some sig
  globals : ∀ outermost, o.scopes.getLast? = some outermost →
    ∀ name τ, outermost.ty? name = some τ → G name = some τ

namespace Opens

theorem nonempty (h : o.Opens L) : o.scopes ≠ [] := by
  obtain ⟨inner, outermost, hss, -⟩ := h
  simp [hss]

theorem enterWith (h : o.Opens L) (kind : ScopeKind) (result : Option Ty) :
    (o.enterWith kind result).Opens ([] :: L) := by
  obtain ⟨inner, outermost, hss, -, hty⟩ := h
  refine ⟨⟨kind, #[], result⟩ :: inner, outermost, ?_, by simp, fun name => ?_⟩
  · simp [Outline.enterWith, Scopes.enterWith, hss]
  · exact hty name

/-- A block without variables does not show. -/
theorem nest {l : Scoping} (h : o.Opens (l :: L)) : o.Opens ([] :: l :: L) := by
  obtain ⟨inner, outermost, hss, htop, hty⟩ := h
  exact ⟨inner, outermost, hss, by simpa using htop, hty⟩

theorem declare (h : o.Opens L) (hfresh : o.scopes.declares v.name = false) :
    (o.declare v).Opens (declareIn L v) := by
  obtain ⟨inner, outermost, hss, htop, hty⟩ := h
  unfold Outline.declare
  by_cases hname : v.name = "_"
  · have hL : declareIn L v = L := by
      cases L <;> simp [declareIn, Scoping.declare, hname]
    rw [hL, Scopes.declare_anonymous _ _ hname]
    exact ⟨inner, outermost, hss, htop, hty⟩
  cases inner with
  | nil =>
    obtain rfl := htop.2 rfl
    refine ⟨[], { outermost with vars := outermost.vars.push ⟨v, true⟩ }, ?_, htop, hty⟩
    simp [Scopes.declare, hname, hss]
  | cons s inner =>
    cases L with
    | nil => simp at htop
    | cons l L =>
    have hs : s.declares v.name = false := by simpa [hss, Scopes.declares] using hfresh
    refine ⟨Scopes.declare (s :: inner) v true, outermost, ?_, by simp [declareIn, Scopes.declare, hname],
      fun name => ?_⟩
    · simp [hss, Scopes.declare, hname]
    · rw [Scopes.ty?_declare s inner v true hname hs, hty, declareIn, Scoping.declare, if_neg hname]
      by_cases h : name = v.name
      · simp [h]
      · rw [if_neg h, List.findSome?_cons, List.findSome?_cons, List.lookup_cons,
          beq_eq_false_iff_ne.2 h]

end Opens

namespace KnownTo

theorem of_declare (h : (o.declare v).KnownTo F G) : o.KnownTo F G := by
  refine ⟨h.funcs, fun outermost hlast name τ hτ => ?_⟩
  have hglobals := h.globals
  unfold Outline.declare Scopes.declare at hglobals
  dsimp only at hglobals
  split at hglobals
  · exact hglobals outermost hlast name τ hτ
  · cases hss : o.scopes with
    | nil => simp [hss] at hlast
    | cons s ss =>
      rw [hss] at hlast hglobals
      cases ss with
      | cons s' ss => exact hglobals outermost hlast name τ hτ
      | nil =>
        obtain rfl : s = outermost := by simpa using hlast
        obtain ⟨w, hw, rfl⟩ := Option.map_eq_some_iff.1 hτ
        refine hglobals { s with vars := s.vars.push ⟨v, true⟩ } rfl name _ ?_
        rw [Scope.ty?, Array.find?_push, hw]
        rfl

theorem of_after (h : (o.after stmt).KnownTo F G) : o.KnownTo F G := by
  rcases after_eq o stmt with heq | ⟨v, heq⟩ <;> rw [heq] at h
  · exact h
  · exact h.of_declare

theorem of_afterAll {stmts : List Stmt} (h : (o.afterAll stmts).KnownTo F G) : o.KnownTo F G := by
  induction stmts generalizing o with
  | nil => exact h
  | cons stmt stmts ih => exact (ih h).of_after

/-- The innermost of several scopes is not known to the whole program. -/
theorem of_leave (h : o.leave.KnownTo F G) (hne : o.leave.scopes ≠ []) : o.KnownTo F G := by
  refine ⟨h.funcs, fun outermost hlast => h.globals outermost ?_⟩
  unfold leave at hne ⊢
  revert hlast hne
  cases o.scopes with
  | nil => simp
  | cons s ss =>
    cases ss with
    | nil => simp
    | cons => exact fun _ hlast => by simpa using hlast

/-- A variable of the whole program is one of the globals. -/
theorem global (h : (o.declare v).KnownTo F G) (ho : o.Opens []) (hname : v.name ≠ "_")
    (hfresh : o.scopes.declares v.name = false) : G v.name = some v.ty := by
  obtain ⟨inner, outermost, hss, htop, -⟩ := ho
  obtain rfl := htop.1 rfl
  have hnew : Scopes.ty? (o.declare v).scopes v.name = some v.ty := by
    have hs : outermost.declares v.name = false := by simpa [hss, Scopes.declares] using hfresh
    simpa [Outline.declare, hss] using Scopes.ty?_declare outermost [] v true hname hs v.name
  unfold Outline.declare at hnew h
  simp only [hss, Scopes.declare, if_neg hname, List.nil_append] at hnew h
  exact h.globals _ rfl _ _ (by simpa [Scopes.ty?] using hnew)

/-- What is declared in the source is there when it runs. -/
theorem weakens (h : o.KnownTo F G) (ho : o.Opens L) :
    Weakens o.func? F o.scopes.ty? (varTy? G L) := by
  refine ⟨h.funcs, fun name τ hτ => ?_⟩
  obtain ⟨inner, outermost, hss, -, hty⟩ := ho
  rw [hss, Scopes.ty?, List.findSome?_append] at hτ
  rw [varTy?, ← hty]
  cases hin : Scopes.ty? inner name with
  | some τ' =>
    rw [Scopes.ty?] at hin
    simpa [hin] using hτ
  | none =>
    rw [Scopes.ty?] at hin
    rw [hin, Option.none_or] at hτ
    exact h.globals outermost (by simp [hss]) name τ (by simpa using hτ)

end KnownTo

namespace Proper

theorem declare (h : o.Proper) (hfresh : o.scopes.declares v.name = false) (hv : v.ty.proper) :
    (o.declare v).Proper := by
  refine ⟨fun name τ hτ => ?_, fun τ hτ => h.returns τ (result?_declare ▸ hτ), h.result, h.params,
    h.variadic⟩
  by_cases hname : v.name = "_"
  · rw [Outline.declare, Scopes.declare_anonymous _ _ hname] at hτ
    exact h.vars name τ hτ
  revert hτ
  unfold Outline.declare
  cases hss : o.scopes with
  | nil => simp [Scopes.declare, hname, Scopes.ty?]
  | cons s ss =>
    have hs : s.declares v.name = false := by simpa [hss, Scopes.declares] using hfresh
    rw [Scopes.ty?_declare s ss v true hname hs]
    split
    · exact fun hτ => Option.some.inj hτ ▸ hv
    · exact fun hτ => h.vars name τ (hss ▸ hτ)

theorem enterWith (h : o.Proper) (kind : ScopeKind) {result : Option Ty}
    (hresult : ∀ τ, result = some τ → τ.settled ∨ τ.same .none) : (o.enterWith kind result).Proper :=
  ⟨h.vars, hresult, h.result, h.params, h.variadic⟩

theorem enter (h : o.Proper) (kind : ScopeKind) : (o.enter kind).Proper :=
  h.enterWith kind h.returns

end Proper

end Outline

/-! ### Statements that have been read -/

/-- The statement is checked where `o` is declared. -/
structure StmtRead (o : Outline) (stmt : Stmt) : Prop where
  checked : ∀ {F G L}, o.Opens L → (o.after stmt).KnownTo F G →
    stmt.Checked F G o.scopes.result? L o.scopes.inLoop
  opens : ∀ {L}, o.Opens L → (o.after stmt).Opens (stmt.scopings L)
  proper : (o.after stmt).Proper

/-- The statements are checked one after another where `o` is declared. -/
structure StmtsRead (o : Outline) (stmts : List Stmt) : Prop where
  checked : ∀ {F G L}, o.Opens L → (o.afterAll stmts).KnownTo F G →
    Stmt.AllChecked F G o.scopes.result? L o.scopes.inLoop stmts
  opens : ∀ {L}, o.Opens L → (o.afterAll stmts).Opens (scopingsAfter L stmts)
  proper : (o.afterAll stmts).Proper

theorem StmtsRead.nil {o : Outline} (ho : o.Proper) : StmtsRead o [] :=
  ⟨fun _ _ => trivial, id, ho⟩

theorem allChecked_concat {F : Sigs} {G : Vars} {result : Option Ty} {inLoop : Bool}
    {L : List Scoping} {stmts : List Stmt} {stmt : Stmt}
    (h : Stmt.AllChecked F G result L inLoop stmts)
    (hstmt : stmt.Checked F G result (scopingsAfter L stmts) inLoop) :
    Stmt.AllChecked F G result L inLoop (stmts ++ [stmt]) := by
  induction stmts generalizing L with
  | nil => exact ⟨hstmt, trivial⟩
  | cons s stmts ih => exact ⟨h.1, ih h.2 hstmt⟩

theorem StmtsRead.concat {o : Outline} {stmts : List Stmt} {stmt : Stmt} (h : StmtsRead o stmts)
    (hstmt : StmtRead (o.afterAll stmts) stmt) : StmtsRead o (stmts ++ [stmt]) := by
  refine ⟨fun {F G L} hL hknown => ?_, fun {L} hL => ?_, ?_⟩
  · rw [Outline.afterAll_concat] at hknown
    have hlast := hstmt.checked (h.opens hL) hknown
    rw [Outline.result?_afterAll, Outline.inLoop_afterAll] at hlast
    exact allChecked_concat (h.checked hL hknown.of_after) hlast
  · rw [Outline.afterAll_concat]
    simpa [scopingsAfter] using hstmt.opens (h.opens hL)
  · rw [Outline.afterAll_concat]
    exact hstmt.proper

end TinyScript.Parsing
