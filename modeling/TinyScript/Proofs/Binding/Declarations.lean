import TinyScript.Proofs.Binding.Reading

/-!
# What is declared when a scope is left

Statements are bound (`StmtsBound`) if their variables refer to what is declared where they stand, and
what they declare is new in its scope. When a scope is left and all of its variables are marked, each has
been marked by an occurrence after its declaration (`StmtsBound.closed`), and the marks in the scopes
around are those of the occurrences that the scope does not bind (`tail_afterAll`).
-/

namespace TinyScript

namespace Parsing

namespace State

/-- Whether a name is that of a function or of a variable of the host. -/
def Taken (s : State) (name : String) : Prop :=
  s.prelude.isGlobal name ∨ s.isFunc name

/-- Declares variables in the innermost scope. -/
def declareVars (s : State) (vars : List Var) : State :=
  { s with scopes := s.scopes.declareAll vars }

def enterWith (s : State) (kind : ScopeKind) (result : Option Ty) : State :=
  { s with scopes := s.scopes.enterWith kind result }

def leave (s : State) : State :=
  { s with scopes := s.scopes.tail }

/-- What is declared and marked after a statement. -/
def after (s : State) (stmt : Stmt) : State :=
  (s.mark stmt.free).declareVars stmt.declared?.toList

def afterAll (s : State) (stmts : List Stmt) : State :=
  stmts.foldl after s

/-- The list has the nearest declaration of every name that is declared, and the names `taken` cannot be
declared. -/
structure Within (s : State) (taken : String → Prop) (around : List Var) : Prop where
  taken : ∀ name, taken name → s.Taken name
  vars : ∀ name τ, name ≠ "_" → s.scopes.ty? name = some τ →
    ∃ v, around.find? (·.name == name) = some v ∧ v.ty = τ

/-- The variables can be declared one after another in the innermost scope. -/
structure Fresh (s : State) (vars : List Var) : Prop where
  distinct : vars.Pairwise fun v w => v.name = w.name → v.name = "_"
  untaken : ∀ v ∈ vars, s.scopes.declares v.name = false ∧ ¬ s.Taken v.name

variable {s : State} {sc : Scope} {outer : Scopes} {os : List Occurrence} {vars more : List Var}
  {taken : String → Prop} {around : List Var} {kind : ScopeKind} {result : Option Ty}

theorem Fresh.nil (s : State) : s.Fresh [] :=
  ⟨.nil, List.forall_mem_nil _⟩

theorem Fresh.singleton {v : Var} (h : s.scopes.declares v.name = false ∧ ¬ s.Taken v.name) :
    s.Fresh [v] :=
  ⟨List.pairwise_singleton _ _, List.forall_mem_singleton.2 h⟩

theorem afterAll_eq (s : State) (stmts : List Stmt) :
    s.afterAll stmts = { s with scopes := (s.afterAll stmts).scopes } := by
  induction stmts generalizing s with
  | nil => rfl
  | cons stmt stmts ih => exact ih (s.after stmt)

theorem afterAll_concat (s : State) (stmts : List Stmt) (stmt : Stmt) :
    s.afterAll (stmts ++ [stmt]) = (s.afterAll stmts).after stmt := by
  simp [afterAll]

/-- The innermost scope after what has been read and declared in it. -/
theorem exists_declareVars_mark (h : s.scopes = sc :: outer) (os : List Occurrence) (vars : List Var) :
    ∃ t, ((s.mark os).declareVars vars).scopes =
      t :: outer.markAll (os.filter fun o => !sc.declares o.name) ∧ sc.Next os vars t := by
  have hnext := Scopes.exists_declareAll_markAll sc outer os vars
  rwa [← h] at hnext

theorem declares_declareVars (h : s.scopes = sc :: outer) (vars : List Var) (name : String) :
    (s.declareVars vars).scopes.declares name = (s.scopes.declares name || vars.any (·.binds name)) := by
  obtain ⟨t, ht, hnext⟩ := exists_declareVars_mark h [] vars
  rw [mark_nil] at ht
  rw [ht, h]
  exact hnext.declares name

namespace Within

theorem refers (h : s.Within taken around) {o : Occurrence} (ho : s.scopes.Refers o) : o.Refers around := by
  obtain ⟨hname, τ, hτ, hsame⟩ := ho
  obtain ⟨v, hv, rfl⟩ := h.vars o.name τ hname hτ
  exact ⟨hname, v, hv, hsame⟩

theorem mark (h : s.Within taken around) (os : List Occurrence) : (s.mark os).Within taken around :=
  ⟨h.taken, fun name τ hname hτ => h.vars name τ hname (by rwa [State.mark, Scopes.ty?_markAll] at hτ)⟩

theorem enterWith (h : s.Within taken around) (kind : ScopeKind) (result : Option Ty) :
    (s.enterWith kind result).Within taken around :=
  ⟨h.taken, h.vars⟩

theorem declare (h : s.Within taken around) (hs : s.scopes = sc :: outer) {v : Var}
    (hfresh : s.scopes.declares v.name = false) : (s.declareVars [v]).Within taken (v :: around) := by
  refine ⟨h.taken, fun name τ hname hτ => ?_⟩
  rw [hs] at hfresh
  rw [declareVars, Scopes.declareAll, List.foldl_cons, List.foldl_nil, hs] at hτ
  by_cases hv : v.name = "_"
  · rw [Scopes.declare_anonymous _ _ hv, ← hs] at hτ
    rw [List.find?_cons_of_neg (by simp [hv, Ne.symm hname])]
    exact h.vars name τ hname hτ
  · rw [Scopes.ty?_declare sc outer v false hv hfresh, ← hs] at hτ
    split at hτ
    · next heq => exact ⟨v, by simp [heq], Option.some.inj hτ⟩
    · next hne =>
      rw [List.find?_cons_of_neg (by simpa using Ne.symm hne)]
      exact h.vars name τ hname hτ

end Within

namespace Fresh

theorem of_mark (h : (s.mark os).Fresh vars) : s.Fresh vars := by
  refine ⟨h.distinct, fun v hv => ?_⟩
  have hfresh := h.untaken v hv
  rwa [State.mark, Scopes.declares_markAll] at hfresh

theorem mark (h : s.Fresh vars) (os : List Occurrence) : (s.mark os).Fresh vars := by
  refine ⟨h.distinct, fun v hv => ?_⟩
  rw [State.mark, Scopes.declares_markAll]
  exact h.untaken v hv

theorem append (h : s.Fresh vars) (hs : s.scopes = sc :: outer) (hmore : (s.declareVars vars).Fresh more) :
    s.Fresh (vars ++ more) := by
  have hnew (w : Var) (hw : w ∈ more) :
      s.scopes.declares w.name = false ∧ ∀ v ∈ vars, v.binds w.name = false := by
    have hdeclares := (hmore.untaken w hw).1
    rw [declares_declareVars hs, Bool.or_eq_false_iff, List.any_eq_false] at hdeclares
    exact ⟨hdeclares.1, fun v hv => Bool.eq_false_iff.2 (hdeclares.2 v hv)⟩
  refine ⟨List.pairwise_append.2 ⟨h.distinct, hmore.distinct, fun v hv w hw hname => ?_⟩, fun v hv => ?_⟩
  · have hbinds := (hnew w hw).2 v hv
    rw [Var.binds, hname, beq_self_eq_true, Bool.true_and] at hbinds
    rw [hname]
    simpa using hbinds
  · rcases List.mem_append.1 hv with hv | hv
    · exact h.untaken v hv
    · exact ⟨(hnew v hv).1, (hmore.untaken v hv).2⟩

theorem declarable (h : s.Fresh vars) (hw : s.Within taken around) : Declarable taken vars :=
  ⟨h.distinct, fun v hv ht => (h.untaken v hv).2 (hw.taken _ ht)⟩

end Fresh

/-- Variables are declared one after another. -/
theorem Within.declareVars (h : s.Within taken around) (hs : s.scopes = sc :: outer) (hfresh : s.Fresh vars) :
    (s.declareVars vars).Within taken (vars.reverse ++ around) := by
  induction vars generalizing s sc around with
  | nil => exact h
  | cons v vars ih =>
    obtain ⟨hv, hvars⟩ := List.forall_mem_cons.1 hfresh.untaken
    obtain ⟨t, ht, -⟩ := exists_declareVars_mark hs [] [v]
    have hrest : (s.declareVars [v]).Fresh vars := by
      refine ⟨hfresh.distinct.of_cons, fun w hw => ⟨?_, (hvars w hw).2⟩⟩
      rw [declares_declareVars hs, (hvars w hw).1]
      have hname := List.rel_of_pairwise_cons hfresh.distinct hw
      by_cases heq : v.name = w.name
      · simp [Var.binds, hname heq]
      · simp [Var.binds, heq]
    have hcons := ih (h.declare hs hv.1) ht hrest
    rw [List.reverse_cons, List.append_assoc, List.singleton_append]
    exact hcons

/-- What is marked and declared by a statement is in the innermost scope, or was declared around it. -/
theorem exists_after (h : s.scopes = sc :: outer) (stmt : Stmt) :
    ∃ t, (s.after stmt).scopes = t :: outer.markAll (stmt.free.filter fun o => !sc.declares o.name) ∧
      sc.Next stmt.free stmt.declared?.toList t :=
  exists_declareVars_mark h _ _

/-- A scope binds what it has declared at its start, and what is declared in it from then on. -/
theorem filter_unbound {t : Scope} (h : sc.Next os vars t) (us : List Occurrence) :
    (us.filter fun o => !t.declares o.name) = (unbound vars us).filter fun o => !sc.declares o.name := by
  rw [unbound, List.filter_filter]
  refine List.filter_congr fun o _ => ?_
  rw [h.declares, Bool.not_or]

/-- The marks in the scopes around are those of the occurrences that the scope does not bind. -/
theorem tail_afterAll (h : s.scopes = sc :: outer) (stmts : List Stmt) :
    (s.afterAll stmts).scopes.tail =
      outer.markAll ((Stmt.freeAll stmts).filter fun o => !sc.declares o.name) := by
  induction stmts generalizing s sc outer with
  | nil => exact congrArg List.tail h
  | cons stmt stmts ih =>
    obtain ⟨t, ht, hnext⟩ := exists_after h stmt
    refine (ih ht).trans ?_
    rw [filter_unbound hnext, ← Scopes.markAll_append, ← List.filter_append, Stmt.freeAll]

end State

variable {σ : State} {sc : Scope} {outer : Scopes} {stmt : Stmt} {stmts : List Stmt} {vars : List Var}
  {kind : ScopeKind} {result : Option Ty}

/-! ### Statements -/

/-- The statement is closed where it stands, and what it declares is new there. -/
structure StmtBound (σ : State) (stmt : Stmt) : Prop where
  closed : ∀ {taken around}, σ.Within taken around → stmt.Closed taken around
  fresh : σ.Fresh stmt.declared?.toList

/-- Each statement is bound after those before it. -/
def StmtsBound : State → List Stmt → Prop
  | _, [] => True
  | σ, stmt :: stmts => StmtBound σ stmt ∧ StmtsBound (σ.after stmt) stmts

namespace StmtsBound

theorem concat (h : StmtsBound σ stmts) (hstmt : StmtBound (σ.afterAll stmts) stmt) :
    StmtsBound σ (stmts ++ [stmt]) := by
  induction stmts generalizing σ with
  | nil => exact ⟨hstmt, trivial⟩
  | cons first stmts ih => exact ⟨h.1, ih h.2 hstmt⟩

theorem fresh (h : StmtsBound σ stmts) (hσ : σ.scopes = sc :: outer) : σ.Fresh (declaredIn stmts) := by
  induction stmts generalizing σ sc outer with
  | nil => exact .nil _
  | cons stmt stmts ih =>
    obtain ⟨t, ht, -⟩ := State.exists_after hσ stmt
    obtain ⟨u, hu, -⟩ := State.exists_declareVars_mark hσ stmt.free []
    have hcons : declaredIn (stmt :: stmts) = stmt.declared?.toList ++ declaredIn stmts := by
      cases hdecl : stmt.declared? <;> simp [declaredIn, hdecl]
    rw [hcons]
    exact ((h.1.fresh.mark _).append hu (ih h.2 ht)).of_mark

/-- If all variables of the scope are marked in the end, each has been read after its declaration. -/
theorem closed (h : StmtsBound σ stmts) (hσ : σ.scopes = sc :: outer) {taken : String → Prop}
    {around : List Var} (hw : σ.Within taken around) (hused : (σ.afterAll stmts).scopes.unused = []) :
    Stmt.AllClosed taken around stmts ∧
      ∀ w ∈ sc.vars, w.used ∨ ∃ o ∈ Stmt.freeAll stmts, o.name = w.var.name := by
  -- on the statements: each leaves the innermost scope as `Scope.Next` says, and what is marked there in
  -- the end has been marked before or by one of the statements
  induction stmts generalizing σ sc outer around with
  | nil =>
    have hunused : sc.unused = [] := by
      rw [← hused]
      exact (congrArg Scopes.unused hσ).symm
    refine ⟨trivial, fun w hw => .inl ?_⟩
    simp only [Scope.unused, List.map_eq_nil_iff, Array.toList_filter, List.filter_eq_nil_iff] at hunused
    simpa using hunused w (Array.mem_def.1 hw)
  | cons stmt stmts ih =>
    obtain ⟨t, ht, hnext⟩ := State.exists_after hσ stmt
    have hdeclared : (σ.after stmt).Within taken (stmt.declared?.toList ++ around) := by
      obtain ⟨u, hu, -⟩ := State.exists_declareVars_mark hσ stmt.free []
      have hreverse : stmt.declared?.toList.reverse = stmt.declared?.toList := by
        cases stmt.declared? <;> rfl
      have hwithin := (hw.mark stmt.free).declareVars hu (h.1.fresh.mark _)
      rwa [hreverse] at hwithin
    obtain ⟨hclosed, hrest⟩ := ih h.2 ht hdeclared hused
    refine ⟨⟨h.1.closed hw, fun v hv hname => ?_, hclosed⟩, fun w hw => ?_⟩
    · rcases hrest _ (hnext.new v (by simp [hv]) hname) with hmarked | ⟨o, ho, honame⟩
      · cases hmarked
      · exact ⟨o, ho, by simp [Var.binds, hname, honame]⟩
    · obtain ⟨w', hw', hvar, hmarked⟩ := hnext.old w hw
      rcases hrest w' hw' with hused | ⟨o, ho, hname⟩
      · exact (hmarked hused).imp_right (Exists.imp fun o h => ⟨List.mem_append_left _ h.1, h.2⟩)
      · refine .inr ⟨o, List.mem_append_right _ (List.mem_filter.2 ⟨ho, ?_⟩), hname.trans (by rw [hvar])⟩
        -- a variable of the scope does not have the name of one that is new in it
        have hold : σ.scopes.declares o.name := by
          rw [hσ, hname, hvar]
          exact Array.any_eq_true'.2 ⟨w, hw, by simp⟩
        rw [Bool.not_eq_true', List.any_eq_false]
        intro v hv hbinds
        have hnew := (h.1.fresh.untaken v hv).1
        rw [Var.binds, Bool.and_eq_true, beq_iff_eq] at hbinds
        rw [hbinds.1, hold] at hnew
        cases hnew

end StmtsBound

/-! ### Blocks -/

/-- The block is closed in a scope that starts with the variables `vars`. -/
def BlockBound (σ : State) (vars : List Var) (b : Block) : Prop :=
  ∀ {taken around}, σ.Within taken around → Block.Closed taken around vars b

/-- A block that has been read in a scope of its own, which is still open. -/
structure OpenBlock (σ : State) (kind : ScopeKind) (result : Option Ty) (vars : List Var) (b : Block)
    (s : State) : Prop where
  fresh : (σ.enterWith kind result).Fresh vars
  stmts : StmtsBound ((σ.enterWith kind result).declareVars vars) b.stmts
  reading : Reading (((σ.enterWith kind result).declareVars vars).afterAll b.stmts) [] s

namespace OpenBlock
variable {b : Block} {s : State}

theorem bound (h : OpenBlock σ kind result vars b s) (hused : s.scopes.unused = []) :
    BlockBound σ vars b := by
  intro taken around hw
  obtain ⟨t, c, stmts⟩ := b
  have hscopes : (σ.enterWith kind result).scopes = ⟨kind, #[], result⟩ :: σ.scopes := rfl
  obtain ⟨u, hu, hnext⟩ := State.exists_declareVars_mark hscopes [] vars
  have hend : s.scopes = (((σ.enterWith kind result).declareVars vars).afterAll stmts).scopes :=
    h.reading.scopes
  have hwithin := (hw.enterWith kind result).declareVars hscopes h.fresh
  obtain ⟨hclosed, hread⟩ := h.stmts.closed hu hwithin (hend ▸ hused)
  refine ⟨(h.fresh.append hscopes (h.stmts.fresh hu)).declarable (hw.enterWith kind result),
    fun v hv hname => ?_, hclosed⟩
  rcases hread _ (hnext.new v hv hname) with hmarked | ⟨o, ho, honame⟩
  · cases hmarked
  · exact ⟨o, ho, by simp [Var.binds, hname, honame]⟩

theorem leave (h : OpenBlock σ kind result vars b s) : Reading (σ.mark (Block.free vars b)) [] s.leave := by
  obtain ⟨t, c, stmts⟩ := b
  have hscopes : (σ.enterWith kind result).scopes = ⟨kind, #[], result⟩ :: σ.scopes := rfl
  obtain ⟨u, hu, hnext⟩ := State.exists_declareVars_mark hscopes [] vars
  have hall (us : List Occurrence) :
      (us.filter fun o => !(⟨kind, #[], result⟩ : Scope).declares o.name) = us :=
    List.filter_eq_self.2 fun _ _ => by simp [Scope.declares]
  have htail := State.tail_afterAll hu stmts
  rw [State.filter_unbound hnext] at htail
  simp only [hall, Scopes.markAll_nil] at htail
  refine ⟨⟨h.reading.inRange.pos_le, h.reading.inRange.eof⟩, ?_, List.forall_mem_nil _⟩
  have hsite : s.leave.site = _ := congrArg State.leave h.reading.site
  rw [hsite, State.mark_nil, State.mark_nil, State.afterAll_eq]
  exact congrArg (fun scopes : Scopes => ({ σ with scopes } : State).site) htail

end OpenBlock

end Parsing

end TinyScript
