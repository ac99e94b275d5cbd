import TinyScript.Proofs.Parsing.Declarations

/-!
# Statements that are read are checked

Every statement is a parser over the parser for the blocks nested in it, so each has a lemma that takes
the claim for those blocks, and `block_reads` ties the knot.
-/

namespace TinyScript.Parsing

variable {φ : Prop} {o o' : Outline} {v : Var} {stmt : Stmt}

/-! ### Scopes -/

/-- At a place where `o` is declared once the innermost scope is closed, and `φ` is known. -/
abbrev AtEnd (φ : Prop) (o : Outline) (s : State) : Prop :=
  φ ∧ s.outline.leave = o

namespace Parses

theorem declareVar (v : Var) : Parses (At φ o) (declareVar v) fun _ => At φ (o.declare v) := by
  refine step (fun _ => rfl) fun s hs => ⟨hs.1, ?_⟩
  rw [← hs.2]
  simp [State.outline, Outline.declare, Scopes.asRead_declare]

theorem enterScopeWith (kind : ScopeKind) (result : Option Ty) :
    Parses (At φ o) (enterScopeWith kind result) fun _ => At φ (o.enterWith kind result) := by
  refine step (fun _ => rfl) fun s hs => ⟨hs.1, ?_⟩
  rw [← hs.2]
  simp [State.outline, Outline.enterWith, Scopes.asRead_enterWith]

theorem enterScope (kind : ScopeKind) :
    Parses (At φ o) (enterScope kind) fun _ => At φ (o.enter kind) := by
  refine step (fun _ => rfl) fun s hs => ⟨hs.1, ?_⟩
  rw [← hs.2]
  simp [State.outline, Outline.enter, Outline.enterWith, Scopes.asRead_enterWith,
    Scopes.enter]

theorem dropScope : Parses (AtEnd φ o) dropScope fun _ => At φ o := by
  refine step (fun _ => rfl) fun s hs => ⟨hs.1, ?_⟩
  rw [← hs.2]
  simp [State.outline, Outline.leave]

theorem leaveScopeAtEnd : Parses (AtEnd φ o) leaveScope fun _ => At φ o := by
  refine (Parses.state (Q := fun _ => AtEnd φ o) fun s hs => hs).bind fun s => dropScope.bind fun _ => ?_
  refine (Keeps.forM (fun v => ?_) _).conseq (fun s hs => hs) fun _ _ hs => ⟨hs.1, hs.2.1⟩
  exact Keeps.reportAt _ _

theorem leaveScope (h : o.leave = o') : Parses (At φ o) leaveScope fun _ => At φ o' :=
  leaveScopeAtEnd.conseq (fun s hs => ⟨hs.1, by rw [hs.2, h]⟩) fun _ _ => id

/-- It is enough to know that the outline is proper as long as there are no problems. -/
theorem of_known {α : Type} {m : Parse α} {Q : Outline → α → State → Prop}
    (hm : ∀ o : Outline, o.Proper → Parses (At True o) m (Q o)) (ho : φ → o.Proper) :
    Parses (At φ o) m fun a s => φ ∧ Q o a s := by
  by_cases h : o.Proper
  · exact (hm o h).frame.conseq (fun s hs => ⟨hs.1, trivial, hs.2⟩) fun _ _ => id
  · have hnothing : ({ o with funcs := [], scopes := [] } : Outline).Proper :=
      ⟨nofun, nofun, nofun, nofun, nofun⟩
    exact ((hm _ hnothing).frame (φ := False)).conseq (fun s hs => absurd (ho hs.1) h)
      fun _ _ hs => hs.1.elim

end Parses

theorem checkDecl_keeps (v : Var) (allowAnonymous : Bool) : Keeps φ o (checkDecl v allowAnonymous)
    fun b => b = true ∧ o.scopes.declares v.name = false ∧ (allowAnonymous = false → v.name ≠ "_") := by
  refine Keeps.state.bind fun s => ?_
  split
  · next hnone =>
    refine .pure fun h => ⟨rfl, ?_⟩
    unfold State.declProblem? at hnone
    split at hnone
    · cases hnone
    split at hnone
    · cases hnone
    next hdeclares =>
    refine ⟨?_, fun hanonymous hname => ?_⟩
    · rw [← h.2, State.outline, Scopes.declares_asRead]
      exact Bool.not_eq_true _ ▸ hdeclares
    · rw [hanonymous, hname] at hnone
      split at hnone <;> cases hnone
  · exact (Keeps.reportAt _ _ (A := fun _ => False)).bind fun _ => .pure fun h => h.2.elim

/-! ### Statements -/

/-- A statement has been read, and what it declares is declared; or there is none, and nothing is. -/
def StmtPost (o : Outline) (r : Option Stmt) (s : State) : Prop :=
  match r with
  | some stmt => s.outline = o.after stmt ∧ StmtRead o stmt
  | none => s.outline = o

/-- A statement that declares nothing. -/
structure PlainRead (o : Outline) (stmt : Stmt) : Prop where
  after : o.after stmt = o
  scopings : ∀ L, stmt.scopings L = L
  checked : ∀ {F G L}, o.Opens L → o.KnownTo F G → stmt.Checked F G o.scopes.result? L o.scopes.inLoop

theorem PlainRead.stmtRead (h : PlainRead o stmt) (ho : o.Proper) : StmtRead o stmt := by
  refine ⟨fun hL hknown => ?_, fun hL => ?_, ?_⟩
  · rw [h.after] at hknown
    exact h.checked hL hknown
  · rw [h.after, h.scopings]
    exact hL
  · rw [h.after]
    exact ho

theorem Reads.stmtPost {m : Attempt Stmt} (hm : Reads φ o m (PlainRead o)) (ho : o.Proper) :
    Parses (At φ o) m.run (StmtPost o) := by
  refine Parses.conseq hm.run (fun _ => id) fun r s hs => ?_
  cases r with
  | none => exact hs.2.1
  | some stmt =>
    have hplain := hs.2.2 stmt rfl
    exact ⟨hs.2.1.trans hplain.after.symm, hplain.stmtRead ho⟩

theorem Keeps.stmtPost {m : Parse Stmt} (hm : Keeps φ o m (PlainRead o)) (ho : o.Proper) :
    Parses (At φ o) (liftM m : Attempt Stmt).run (StmtPost o) :=
  (Reads.lift hm).stmtPost ho

/-- A declaration that has been read. -/
theorem StmtRead.of_decl {value : Expr} (hv : ReadIn o value) (ho : o.Proper) (hname : v.name ≠ "_")
    (hfresh : o.scopes.declares v.name = false) (hty : v.ty.proper) (hafter : o.after stmt = o.declare v)
    (hscopings : ∀ L, stmt.scopings L = declareIn L v)
    (hchecked : ∀ F G L, stmt.Checked F G o.scopes.result? L o.scopes.inLoop =
      (value.Checked F (varTy? G L) ∧ (L = [] → G v.name = some v.ty))) : StmtRead o stmt := by
  refine ⟨fun {F G L} hL hknown => ?_, fun hL => ?_, ?_⟩
  · rw [hafter] at hknown
    rw [hchecked]
    refine ⟨hv.checked.mono (hknown.of_declare.weakens hL), ?_⟩
    rintro rfl
    exact hknown.global hL hname hfresh
  · rw [hafter, hscopings]
    exact hL.declare hfresh
  · rw [hafter]
    exact ho.declare hfresh hty

theorem ReadIn.zeroValue {ty : Ty} (token : Token) (h : ty.settled) : ReadIn o (zeroValue ty token) := by
  unfold Parsing.zeroValue
  split <;> rename_i hk
  · exact ⟨rfl, rfl⟩
  · exact ⟨rfl, rfl⟩
  · exact ⟨rfl, rfl⟩
  · exact ⟨⟨rfl, rfl⟩, rfl⟩
  · exact ⟨⟨Ty.same_array_elem.2 ⟨hk, Ty.isGeneric_of_settled h⟩, trivial⟩, Ty.proper_of_settled h⟩
  · exact ⟨⟨Ty.same_map_elem.2 ⟨hk, Ty.isGeneric_of_settled h⟩, trivial⟩, Ty.proper_of_settled h⟩
  · exact absurd hk (Ty.kind_ne_illegal_of_settled h)
  · exact absurd hk (Ty.kind_ne_none_of_settled h)

theorem typedVar_keeps : Keeps φ o typedVar fun r =>
    r.1.ty.settled ∧ ∃ token, r.2 = zeroValue r.1.ty token := by
  refine (Keeps.look (f := State.cur)).bind fun token => (Keeps.move State.moves_advance).bind fun _ =>
    (Keeps.move State.moves_advance).bind fun _ => type_keeps.bind fun ty =>
    (Keeps.look (f := State.cur)).bind fun here => ?_
  dsimp only
  split
  · exact (Keeps.reportAt _ _ (A := fun _ => False)).bind fun _ => .pure fun h => h.2.elim
  · next hk => exact .pure fun h => ⟨h.1.2.resolve_left hk, here, rfl⟩

theorem typedDecl_parses (ho : o.Proper) :
    Parses (At φ o) typedDecl fun stmt s => s.outline = o.after stmt ∧ StmtRead o stmt := by
  have hend {ψ : Prop} {o' : Outline} (v : Var) (value : Expr) (hψ : ψ → o' = o.declare v ∧
      ∀ comment, StmtRead o (.typedDecl v.token comment v value)) : Parses (At ψ o') (do
      let comment ← comment?
      nextLine
      return Stmt.typedDecl v.token comment v value)
      fun stmt s => s.outline = o.after stmt ∧ StmtRead o stmt := by
    refine (Keeps.look (f := State.comment?)).andThen fun comment =>
      (Keeps.move State.moves_nextLine).andThen fun _ => .pure fun s hs => ?_
    obtain ⟨rfl, hread⟩ := hψ hs.1.1.1
    exact ⟨hs.2, hread comment⟩
  refine typedVar_keeps.andThen fun r => ?_
  obtain ⟨v, value⟩ := r
  dsimp only
  split
  · refine (checkDecl_keeps v false).andThen fun b => ?_
    split
    · refine (Parses.declareVar v).bind fun _ => Keeps.expectLineEnd.andThen fun _ => hend v value fun h => ?_
      obtain ⟨⟨⟨hφ, hty, token, rfl⟩, hdecl⟩, -⟩ := h
      refine ⟨rfl, fun comment => ?_⟩
      exact .of_decl (.zeroValue token hty) ho (hdecl.2.2 rfl) hdecl.2.1 (Ty.proper_of_settled hty) rfl
        (fun _ => rfl) fun _ _ _ => rfl
    · next hb => exact hend v value fun h => absurd h.2.1 hb
  · next hk => exact hend v value fun h => absurd (Ty.kind_ne_illegal_of_settled h.2.1) hk

theorem inferredDecl_parses (ho : o.Proper) : Parses (At φ o) inferredDecl.run (StmtPost o) := by
  refine Parses.bind (Q := StmtPost o) ?_ fun r => ?_
  · have hnone {ψ : Prop} (s : State) (_ : ψ) (hs : s.outline = o) : StmtPost o none s := hs
    refine (Keeps.look (f := State.cur)).liftThen fun token =>
      (Keeps.move State.moves_advance).liftThen fun _ => (Keeps.move State.moves_advance).liftThen fun _ =>
      (Keeps.look (f := State.cur)).liftThen fun valueToken => (topLevelExpr_reads ho).run.liftThen fun value? => ?_
    split
    · next value =>
      refine Reads.ifFailThen (.fail _) hnone <| (checkDecl_keeps _ false).liftThen fun b => ?_
      split
      · refine (Parses.declareVar _).liftBind fun _ => Keeps.expectLineEnd.liftThen fun _ =>
          (Keeps.look (f := State.comment?)).liftThen fun comment => .pure fun s hs => ⟨hs.2, ?_⟩
        obtain ⟨⟨⟨-, hvalue⟩, -⟩, -, hfresh, hname⟩ := hs.1.1.1
        have hread := (hvalue value rfl).infer
        have hty : value.infer.ty.infer.unfixed.proper := by
          rw [Ty.proper_unfixed]
          exact Ty.proper_infer hread.proper
        exact .of_decl hread ho (hname rfl) hfresh hty rfl (fun _ => rfl) fun _ _ _ => rfl
      · exact Parses.pure fun s hs => hs.2
    · exact ((Reads.fail _ (A := PlainRead o)).stmtPost ho)
  refine Parses.bind (Q := fun _ => StmtPost o r) (.step State.moves_nextLine.isMove.problems fun s hs => ?_) fun _ => .pure fun _ => id
  unfold StmtPost at hs ⊢
  rwa [State.moves_nextLine.isMove.outline]

/-! ### Simple statements -/

theorem emptyLine_keeps : Keeps φ o emptyLine (PlainRead o) := by
  have hend {ψ : Prop} (token : Token) (comment : Option String) : Keeps ψ o (do
      advance
      return .empty token comment) (PlainRead o) :=
    (Keeps.move State.moves_advance).bind fun _ => .pure fun _ => ⟨rfl, fun _ => rfl, fun _ _ => trivial⟩
  refine (Keeps.look (f := State.cur)).bind fun token => (Keeps.look (f := State.comment?)).bind fun comment => ?_
  dsimp only
  split
  · exact (Keeps.move State.moves_advance).bind fun _ => hend token comment
  · exact hend token comment

/-- The target of an assignment. -/
structure TargetIn (o : Outline) (e : Expr) : Prop extends ReadIn o e where
  isTarget : e.IsTarget

theorem targetWithin_reads (ho : o.Proper) (token : Token) (fuel : Nat) {target : Expr}
    (h : φ → TargetIn o target) : Reads φ o (targetWithin token fuel target) (TargetIn o) := by
  induction fuel generalizing φ target with
  | zero => exact .pure h
  | succ fuel ih =>
    refine Reads.look.bind fun k => ?_
    split
    · refine .ifFail (.failAt _ _) <|
        (indexOrSlice_reads (nested_reads ho) ho false fun hφ => (h hφ.1.1).toReadIn).bind fun e => ih fun hφ => ?_
      obtain ⟨hread, hindex⟩ := hφ.2
      obtain ⟨m, key, rfl⟩ := hindex rfl
      exact ⟨hread, Bool.eq_false_iff.2 hφ.1.2⟩
    · refine (field_reads fun hφ => (h hφ.1).toReadIn).bind fun e => ih fun hφ => ?_
      obtain ⟨hread, m, key, rfl⟩ := hφ.2
      exact ⟨hread, trivial⟩
    · exact .pure fun hφ => h hφ.1

theorem assignTarget_reads (ho : o.Proper) : Reads φ o assignTarget (TargetIn o) := by
  refine (Reads.look (f := State.cur)).bind fun token => (Reads.move State.moves_advance).bind fun _ =>
    .ifFail (.failAt _ _) <| (Reads.lift (readVar?_keeps token.literal)).bind fun v? => ?_
  split
  · next v =>
    refine (Reads.lift Keeps.state).bind fun s => targetWithin_reads ho token _ fun h => ?_
    obtain ⟨hname, hv, hty⟩ := h.1.2 v rfl
    exact ⟨readIn_ofVar ho token hname hv hty, trivial⟩
  · exact .failAt _ _

theorem assignment_reads (ho : o.Proper) : Reads φ o assignment (PlainRead o) := by
  refine .orNextLine <| (Reads.look (f := State.cur)).bind fun token =>
    (Reads.look (f := (·.isFunc token.literal))).bind fun b => .ifFail (.fail _) <|
    (assignTarget_reads ho).bind fun target => (Reads.lift (Keeps.expect _)).bind fun _ =>
    (Reads.move State.moves_advance).bind fun _ => (topLevelExpr_reads ho).bind fun value =>
    .unlessFail (.lift (.reportAt _ _)) <| (Reads.lift Keeps.expectLineEnd).bind fun _ =>
    (Reads.look (f := State.comment?)).bind fun comment =>
    (Reads.move State.moves_nextLine).bind fun _ => .pure fun h => ?_
  have hvalue : ReadIn o value := h.1.1.1.1.2
  have htarget : TargetIn o target := h.1.1.1.1.1.1.1.2
  refine ⟨rfl, fun _ => rfl, fun hL hknown => ?_⟩
  have hw := hknown.weakens hL
  exact ⟨(hvalue.wrap htarget.proper).checked.mono hw, htarget.checked.mono hw, htarget.isTarget⟩

theorem callStmt_reads (ho : o.Proper) : Reads φ o callStmt (PlainRead o) := by
  refine .orNextLine <| (call_reads (nested_reads ho) ho).bind fun c =>
    (Reads.lift Keeps.expectLineEnd).bind fun _ => (Reads.look (f := State.comment?)).bind fun comment =>
    (Reads.move State.moves_nextLine).bind fun _ => .pure fun h => ?_
  obtain ⟨sig, hsig, -, hcount, hargs⟩ := h.1.1.1.2
  refine ⟨rfl, fun _ => rfl, fun hL hknown => ⟨fun sig' hsig' => ?_, ?_⟩⟩
  · cases hsig.symm.trans (hknown.funcs _ _ hsig')
    exact hcount
  · exact (allChecked_of hargs).mono (hknown.weakens hL)

theorem accepts_none {t : Ty} (h : t.accepts .none) : t.same .none := by
  cases t with
  | leaf k f =>
    simp only [Ty.accepts, Ty.acceptsAt, Bool.or_eq_true, Bool.and_eq_true, beq_iff_eq] at h
    rcases h with (h | ⟨-, h⟩) | ⟨rfl, h⟩
    · exact h
    · cases h
    · cases h
  | of k f e => simp [Ty.accepts, Ty.acceptsAt, Ty.same, Ty.none, Ty.anyTakes, Ty.kind, Ty.isEmpty] at h

theorem accepts_illegal {t : Ty} (ht : t.settled ∨ t.same .none) : t.accepts .illegal = false := by
  cases t with
  | leaf k f =>
    cases k <;> simp_all [Ty.accepts, Ty.acceptsAt, Ty.same, Ty.illegal, Ty.anyTakes, Ty.kind,
      Ty.settled, Ty.none, Kind.isComposite]
  | of k f e =>
    simp_all [Ty.accepts, Ty.acceptsAt, Ty.same, Ty.illegal, Ty.anyTakes, Ty.kind,
      Ty.settled, Ty.none, Kind.isComposite, Ty.isEmpty]

/-- The rest of a `return` after its value, which has a type. -/
def returnEnd (token valueToken : Token) (value : Option Expr) (ty : Ty) : Parse Stmt := do
  let mut value := value
  match (← get).scopes.result? with
  | none => reportAt valueToken .returnOutside
  | some result =>
    if result.accepts ty then
      value := value.map (Expr.wrap result)
    else if result.same .none && !ty.same .none then
      reportAt valueToken (.returnsValue ty)
    else
      reportAt valueToken (.returnType result ty)
  let comment ← comment?
  nextLine
  return .ret token comment value

theorem returnStmt_keeps (ho : o.Proper) : Keeps φ o returnStmt (PlainRead o) := by
  refine (Keeps.look (f := State.cur)).bind fun token => (Keeps.move State.moves_advance).bind fun _ =>
    (Keeps.look (f := State.cur)).bind fun valueToken => (Keeps.look (f := State.atLineEnd)).bind fun ended => ?_
  have hend {ψ : Prop} (value : Option Expr) (hψ : ψ → ∃ τ, o.scopes.result? = some τ ∧
      (value = none → τ.same .none) ∧ ∀ e, value = some e → ReadIn o e) : Keeps ψ o (do
      let comment ← comment?
      nextLine
      return .ret token comment value) (PlainRead o) := by
    refine (Keeps.look (f := State.comment?)).bind fun comment =>
      (Keeps.move State.moves_nextLine).bind fun _ => .pure fun h => ⟨rfl, fun _ => rfl, fun hL hknown => ?_⟩
    obtain ⟨τ, hτ, hnone, hsome⟩ := hψ h.1.1
    cases value with
    | none => exact ⟨τ, hτ, hnone rfl⟩
    | some e => exact ⟨⟨τ, hτ⟩, (hsome e rfl).checked.mono (hknown.weakens hL)⟩
  have hcheck {ψ : Prop} (value : Option Expr) (ty : Ty)
      (hty : value = none → ty = if ended then .none else .illegal)
      (hψ : ψ → ∀ e, value = some e → ReadIn o e) : Keeps ψ o (returnEnd token valueToken value ty) (PlainRead o) := by
    refine Keeps.state.bind fun s => ?_
    dsimp only
    split
    · exact (Keeps.reportAt _ _ (A := fun _ => False)).bind fun _ => hend value fun h => h.2.elim
    next result hresult =>
    split
    · next haccepts =>
      refine hend _ fun h => ?_
      have hτ : o.scopes.result? = some result := by
        rw [← h.2, State.outline, Scopes.result?_asRead]
        exact hresult
      have hresult := ho.returns result hτ
      refine ⟨result, hτ, fun hnone => ?_, fun e he => ?_⟩
      · rw [hty (Option.map_eq_none_iff.1 hnone)] at haccepts
        cases ended with
        | true => exact accepts_none haccepts
        | false => exact absurd haccepts (by simp [accepts_illegal hresult])
      · obtain ⟨e', he', rfl⟩ := Option.map_eq_some_iff.1 he
        exact (hψ h.1 e' he').wrap (Ty.proper_of_result hresult)
    · split
      · exact (Keeps.reportAt _ _ (A := fun _ => False)).bind fun _ => hend value fun h => h.2.elim
      · exact (Keeps.reportAt _ _ (A := fun _ => False)).bind fun _ => hend value fun h => h.2.elim
  dsimp only
  split
  · next hended => exact hcheck none _ (fun _ => (if_pos hended).symm) fun _ e he => by cases he
  · next hended =>
    refine (topLevelExpr_reads ho).run.bind fun value => ?_
    cases value with
    | none => exact hcheck none _ (fun _ => (if_neg hended).symm) fun _ e he => by cases he
    | some e => exact Keeps.expectLineEnd.bind fun _ => hcheck (some e) _ (fun h => by cases h) fun h => h.1.2

theorem breakStmt_keeps : Keeps φ o breakStmt (PlainRead o) := by
  have hend {ψ : Prop} (token : Token) (hψ : ψ → o.scopes.inLoop) : Keeps ψ o (do
      advance
      expectLineEnd
      let comment ← comment?
      nextLine
      return .brk token comment) (PlainRead o) :=
    (Keeps.move State.moves_advance).bind fun _ => Keeps.expectLineEnd.bind fun _ =>
      (Keeps.look (f := State.comment?)).bind fun comment => (Keeps.move State.moves_nextLine).bind fun _ =>
      .pure fun h => ⟨rfl, fun _ => rfl, fun _ _ => hψ h.1.1.1.1⟩
  refine (Keeps.look (f := State.cur)).bind fun token => Keeps.state.bind fun s => ?_
  dsimp only
  split
  · next hloop =>
    refine hend token fun h => ?_
    rw [← h.2, State.outline, Scopes.inLoop_asRead]
    exact hloop
  · exact (Keeps.reportHere _ (A := fun _ => False)).bind fun _ => hend token fun h => h.2.elim

/-! ### Statements with blocks -/

/-- A parser for nested blocks reads checked blocks. -/
def BlocksRead (block : Blocks) : Prop :=
  ∀ {φ : Prop} {o : Outline} (ends : List TokenKind), o.Proper →
    Parses (At φ o) (block ends) fun b => At (φ ∧ StmtsRead o b.stmts) (o.afterAll b.stmts)

theorem BlocksRead.of_known {block : Blocks} (hblock : BlocksRead block) (ends : List TokenKind)
    (ho : φ → o.Proper) :
    Parses (At φ o) (block ends) fun b => At (φ ∧ StmtsRead o b.stmts) (o.afterAll b.stmts) :=
  (Parses.of_known (fun _ ho => hblock ends ho) ho).conseq (fun _ => id)
    fun _ _ hs => ⟨⟨hs.1, hs.2.1.2⟩, hs.2.2⟩

theorem blockEnd_keeps : Keeps φ o blockEnd fun _ => True :=
  (Keeps.expect _).bind fun _ => (Keeps.move State.moves_advance).bind fun _ =>
    (Keeps.look (f := State.comment?)).bind fun _ => (Keeps.move State.moves_nextLine).bind fun _ =>
    .pure fun _ => trivial

theorem condition_reads (ho : o.Proper) :
    Reads φ o condition fun e => ReadIn o e ∧ e.ty.same .bool :=
  (Reads.look (f := State.cur)).bind fun _ => (topLevelExpr_reads ho).bind fun _ =>
    (Reads.lift Keeps.expectLineEnd).bind fun _ => .unlessFail (.lift (.reportAt _ _)) <|
    .pure fun h => ⟨h.1.1.2, h.2⟩

/-- What is read in a scope of its own is checked in a block of its own. -/
theorem StmtsRead.block {kind : ScopeKind} {stmts : List Stmt} {F : Sigs} {G : Vars} {L : List Scoping}
    (h : StmtsRead (o.enter kind) stmts) (hL : o.Opens L) (hknown : o.KnownTo F G) :
    Stmt.AllChecked F G o.scopes.result? ([] :: L) (o.enter kind).scopes.inLoop stmts := by
  refine h.checked (hL.enterWith kind _) (.of_leave ?_ ?_) <;> rw [Outline.leave_afterAll]
  · exact hknown
  · exact hL.nonempty

/-- The branch is checked where `o` is declared. -/
def BranchRead (o : Outline) (inLoop : Bool) (b : Branch) : Prop :=
  ∀ {F G L}, o.Opens L → o.KnownTo F G → Branch.Checked F G o.scopes.result? L inLoop b

/-- A condition and statements that are read in a scope of their own make a branch. -/
theorem BranchRead.mk {kind : ScopeKind} {e : Expr} (body : Block) (token : Token)
    (comment : Option String) (he : ReadIn (o.enter kind) e) (hty : e.ty.same .bool)
    (hbody : StmtsRead (o.enter kind) body.stmts) :
    BranchRead o (o.enter kind).scopes.inLoop (.mk token comment e body) := by
  intro F G L hL hknown
  have hw : Weakens o.func? F o.scopes.ty? (varTy? G L) := hknown.weakens hL
  have hchecked : e.Checked o.func? o.scopes.ty? := he.checked
  obtain ⟨t, c, stmts⟩ := body
  exact ⟨hchecked.mono hw, hty, hbody.block hL hknown⟩

theorem eq_map_some {α : Type} {l : List (Option α)} {as : List α} (h : l.mapM id = some as) :
    l = as.map some := by
  induction l generalizing as with
  | nil => simpa using h.symm
  | cons a? l ih =>
    rw [List.mapM_cons] at h
    cases a? with
    | none => cases h
    | some a =>
      cases hl : l.mapM id with
      | none => simp [hl] at h
      | some as' =>
        obtain rfl : a :: as' = as := by simpa [hl] using h
        rw [ih hl]
        rfl

theorem branches_checked {inLoop : Bool} {bs : List Branch} {F : Sigs} {G : Vars} {L : List Scoping}
    (h : ∀ b ∈ bs, BranchRead o inLoop b) (hL : o.Opens L) (hknown : o.KnownTo F G) :
    Branch.AllChecked F G o.scopes.result? L inLoop bs := by
  induction bs with
  | nil => trivial
  | cons b bs ih =>
    obtain ⟨hb, hbs⟩ := List.forall_mem_cons.1 h
    exact ⟨hb hL hknown, ih hbs⟩

section
variable {block : Blocks} (hblock : BlocksRead block) (ho : o.Proper)
include hblock ho

theorem whileStmt_reads : Reads φ o (whileStmt block) (PlainRead o) := by
  refine .mk <| (Keeps.look (f := State.cur)).andThen fun token =>
    (Keeps.move State.moves_advance).andThen fun _ => (Parses.enterScope .whileLoop).bind fun _ =>
    (condition_reads (ho.enter _)).run.andThen fun e? => (Keeps.look (f := State.comment?)).andThen fun comment =>
    (Keeps.move State.moves_nextLine).andThen fun _ => (hblock _ (ho.enter _)).bind fun body =>
    (Parses.leaveScope (Outline.leave_afterAll _)).bind fun _ => blockEnd_keeps.andThen fun endComment =>
    .pure fun s hs => ?_
  obtain ⟨⟨⟨⟨⟨⟨⟨hφ, -⟩, -⟩, hcondition⟩, -⟩, -⟩, hbody⟩, -⟩ := hs.1
  refine ⟨hφ, hs.2, fun stmt hstmt => ?_⟩
  obtain ⟨e, rfl, rfl⟩ := Option.map_eq_some_iff.1 hstmt
  obtain ⟨he, hty⟩ := hcondition e rfl
  exact ⟨rfl, fun _ => rfl, BranchRead.mk (body.withComment endComment) token comment he hty hbody⟩

theorem scopedBranch_keeps : Keeps φ o (scopedBranch block) fun b? =>
    ∀ b, b? = some b → BranchRead o o.scopes.inLoop b := by
  have hbranch : Parses (At φ (o.enter .branch)) (branch block [.end, .eof, .else]) fun b? =>
      AtEnd (φ ∧ ∀ b, b? = some b → BranchRead o o.scopes.inLoop b) o := by
    refine (Keeps.look (f := State.cur)).andThen fun token => (Keeps.move State.moves_advance).andThen fun _ =>
      (condition_reads (ho.enter _)).run.andThen fun e? => (Keeps.look (f := State.comment?)).andThen fun comment =>
      (Keeps.move State.moves_nextLine).andThen fun _ => (hblock _ (ho.enter _)).bind fun body =>
      .pure fun s hs => ?_
    obtain ⟨⟨⟨⟨⟨⟨hφ, -⟩, -⟩, hcondition⟩, -⟩, -⟩, hbody⟩ := hs.1
    refine ⟨⟨hφ, fun b hb => ?_⟩, by rw [hs.2, Outline.leave_afterAll]; rfl⟩
    obtain ⟨e, rfl, rfl⟩ := Option.map_eq_some_iff.1 hb
    obtain ⟨he, hty⟩ := hcondition e rfl
    exact BranchRead.mk _ token comment he hty hbody
  refine (Parses.enterScope .branch).bind fun _ => hbranch.bind fun b? => Parses.leaveScopeAtEnd.bind fun _ =>
    .pure fun s hs => ⟨hs.1.1, hs.2, hs.1.2⟩

theorem moreBranches_keeps (fuel : Nat) (done : Array (Option Branch))
    (hdone : φ → ∀ b, some b ∈ done.toList → BranchRead o o.scopes.inLoop b) :
    Keeps φ o (moreBranches block fuel done) fun bs => ∀ b, some b ∈ bs → BranchRead o o.scopes.inLoop b := by
  induction fuel generalizing φ done with
  | zero => exact .pure hdone
  | succ fuel ih =>
    refine Keeps.state.bind fun s => ?_
    split
    · refine (Keeps.move State.moves_advance).bind fun _ => (scopedBranch_keeps hblock ho).bind fun b? =>
        ih (done.push b?) fun h b hb => ?_
      rw [Array.toList_push, List.mem_append, List.mem_singleton] at hb
      rcases hb with hb | hb
      · exact hdone h.1.1.1 b hb
      · exact h.2 b hb.symm
    · exact .pure fun h => hdone h.1

/-- The block is checked in a scope of its own where `o` is declared. -/
def BlockRead (o : Outline) (inLoop : Bool) (b : Block) : Prop :=
  ∀ {F G L}, o.Opens L → o.KnownTo F G → Block.Checked F G o.scopes.result? L inLoop b

theorem otherwise_keeps : Keeps φ o (otherwise block) fun b? =>
    ∀ b, b? = some b → BlockRead o o.scopes.inLoop b := by
  refine Keeps.look.bind fun k => ?_
  split
  · exact .pure fun _ b hb => by cases hb
  · refine (Keeps.move State.moves_advance).andThen fun _ => Keeps.expectLineEnd.andThen fun _ =>
      (Keeps.look (f := State.comment?)).andThen fun comment => (Keeps.move State.moves_nextLine).andThen fun _ =>
      (Parses.enterScope .branch).bind fun _ => (hblock _ (ho.enter _)).bind fun body =>
      (Parses.leaveScope (Outline.leave_afterAll _)).bind fun _ => .pure fun s hs => ?_
    refine ⟨hs.1.1.1.1.1.1, hs.2, fun b hb => ?_⟩
    obtain rfl := Option.some.inj hb
    exact fun hL hknown => hs.1.2.block hL hknown

theorem ifStmt_reads : Reads φ o (ifStmt block) (PlainRead o) := by
  refine .mk <| (Keeps.look (f := State.cur)).bind fun token => (scopedBranch_keeps hblock ho).bind fun first? =>
    Keeps.state.bind fun s =>
    (moreBranches_keeps hblock ho _ _ fun _ b hb => by cases hb).bind fun more? =>
    (otherwise_keeps hblock ho).bind fun last => blockEnd_keeps.bind fun comment => .pure fun h stmt hstmt => ?_
  obtain ⟨⟨⟨⟨⟨-, hfirst⟩, -⟩, hmore⟩, hlast⟩, -⟩ := h
  cases first? with
  | none => cases hstmt
  | some first =>
  cases hmap : more?.mapM id with
  | none => simp [hmap] at hstmt
  | some more =>
  obtain rfl : _ = stmt := by simpa [hmap] using hstmt
  obtain rfl := eq_map_some hmap
  refine ⟨rfl, fun _ => rfl, fun hL hknown => ⟨hfirst first rfl hL hknown, ?_, ?_⟩⟩
  · exact branches_checked (fun b hb => hmore b (List.mem_map_of_mem hb)) hL hknown
  · cases last with
    | none => trivial
    | some b => exact hlast b rfl hL hknown

end

/-! ### Loops over ranges -/

/-- The range is checked where `o` is declared, for a variable of type `ty`. -/
structure RangeRead (o : Outline) (ty : Ty) (range : Range) : Prop where
  checked : ∀ {F V} {var : Option Var}, Weakens o.func? F o.scopes.ty? V → (∀ v, var = some v → v.ty = ty) →
    range.Checked F V (var.map (·.ty))
  proper : ty.proper

theorem same_num_of_badRangeArgument? {es : List Expr} {index : Nat}
    (h : badRangeArgument? index es = none) : ∀ e ∈ es, e.ty.same .num := by
  induction es generalizing index with
  | nil => exact fun e he => by cases he
  | cons e es ih =>
    unfold badRangeArgument? at h
    split at h
    · next hnum => exact List.forall_mem_cons.2 ⟨hnum, ih h⟩
    · cases h

/-- Numbers make a range of numbers. -/
theorem stepRange_keeps {args : List Expr} (token : Token) (hne : args ≠ [])
    (hargs : φ → ∀ e ∈ args, ReadIn o e) :
    Keeps φ o (stepRange args token).run fun r => ∃ range, r = some range ∧ RangeRead o .num range := by
  unfold stepRange
  dsimp only
  split
  · exact .failAtBind _ _
  next hlen =>
  split
  · exact .failAtBind _ _
  next hbad =>
  have hnum := same_num_of_badRangeArgument? (Option.eq_none_iff_forall_ne_some.2 fun (i, t) => hbad i t)
  have hbound (h : φ) {e : Expr} (he : e ∈ args) {F : Sigs} {V : Vars}
      (hw : Weakens o.func? F o.scopes.ty? V) : Expr.BoundChecked F V (some e) :=
    ⟨hnum e he, (hargs h e he).checked.mono hw⟩
  have hvar {var : Option Var} (hv : ∀ v, var = some v → v.ty = .num) (t : Ty)
      (ht : var.map (·.ty) = some t) : t.same .num := by
    obtain ⟨v, rfl, rfl⟩ := Option.map_eq_some_iff.1 ht
    rw [hv v rfl]
    exact Ty.same_refl _
  split
  · refine Keeps.pure fun h => ⟨_, rfl, fun hw hv => ⟨trivial, hbound h ?_ hw, trivial, hvar hv⟩, rfl⟩
    simp
  · refine Keeps.pure fun h => ⟨_, rfl, fun hw hv => ⟨hbound h ?_ hw, hbound h ?_ hw, trivial, hvar hv⟩, rfl⟩ <;>
      simp
  · refine Keeps.pure fun h =>
      ⟨_, rfl, fun hw hv => ⟨hbound h ?_ hw, hbound h ?_ hw, hbound h ?_ hw, hvar hv⟩, rfl⟩ <;> simp
  · next h₁ h₂ h₃ =>
    match args with
    | [] => exact absurd rfl hne
    | [a] => exact absurd rfl (h₁ a)
    | [a, b] => exact absurd rfl (h₂ a b)
    | [a, b, c] => exact absurd rfl (h₃ a b c)
    | _ :: _ :: _ :: _ :: _ => exact absurd (by simp) hlen

theorem rangeOf_keeps {first : Expr} {args : List Expr} (token : Token) (hne : args ≠ [])
    (hfirst : φ → ReadIn o first) (hargs : φ → ∀ e ∈ args, ReadIn o e) :
    Keeps φ o (rangeOf first args token) fun r => ∃ range, r.1 = some range ∧ RangeRead o r.2 range := by
  have hstring {var : Option Var} (hv : ∀ v, var = some v → v.ty = .string) (t : Ty)
      (ht : var.map (·.ty) = some t) : t.same .string := by
    obtain ⟨v, rfl, rfl⟩ := Option.map_eq_some_iff.1 ht
    rw [hv v rfl]
    exact Ty.same_refl _
  unfold rangeOf
  dsimp only
  split <;> rename_i hk
  · refine .pure fun h => ⟨_, rfl, fun hw hv => ⟨(hfirst h).checked.mono hw, .inr ⟨.inl hk, hstring hv⟩⟩, rfl⟩
  · refine .pure fun h => ⟨_, rfl, fun hw hv => ⟨(hfirst h).checked.mono hw, .inr ⟨.inr hk, hstring hv⟩⟩, rfl⟩
  · refine .pure fun h => ⟨_, rfl, fun hw _ => ⟨(hfirst h).checked.mono hw, .inl hk⟩, ?_⟩
    exact Ty.proper_elem (Ty.proper_infer (hfirst h).proper)
  · exact (stepRange_keeps token hne hargs).bind fun r => .pure fun h => h.2
  · exact (Keeps.reportHere _ (A := fun _ => False)).bind fun _ => .pure fun h => h.2.elim

/-- A loop variable can be declared. -/
theorem loopVar_reads : Reads φ o loopVar fun v? =>
    ∀ v, v? = some v → o.scopes.declares v.name = false ∧ v.name ≠ "_" := by
  refine (Reads.look (f := State.cur)).bind fun token => ?_
  dsimp only
  split
  · exact .pure fun _ v hv => by cases hv
  · refine (Reads.lift (checkDecl_keeps _ false)).bind fun b => .unlessFail .failure <|
      (Reads.move State.moves_advance).bind fun _ => (Reads.lift (Keeps.expect _)).bind fun _ =>
      (Reads.move State.moves_advance).bind fun _ => .pure fun h v hv => ?_
    obtain rfl := Option.some.inj hv
    exact ⟨h.1.1.1.1.2.2.1, h.1.1.1.1.2.2.2 rfl⟩

/-- The head of a loop that has been read has a range. -/
structure HeadRead (o : Outline) (head : EachHead) : Prop where
  var : ∀ v, head.var = some v → o.scopes.declares v.name = false ∧ v.name ≠ "_"
  range : ∃ range, head.range = some range ∧ RangeRead o head.ty range

theorem eachHead_reads (ho : o.Proper) : Reads φ o eachHead (HeadRead o) := by
  refine .orNextLine <| loopVar_reads.bind fun var => (Reads.require _).bind fun _ =>
    (Reads.look (f := State.cur)).bind fun token => (Reads.move State.moves_advance).bind fun _ =>
    (exprList_reads (nested_reads ho)).bind fun args => ?_
  split
  · next first rest =>
    refine .ifFail (.fail _) <| (Reads.lift Keeps.expectLineEnd).bind fun _ => ?_
    refine (Reads.lift (rangeOf_keeps token (by simp) (fun h => h.1.1.2 first List.mem_cons_self)
      fun h => h.1.1.2)).bind fun r => .pure fun h => ⟨?_, h.2⟩
    exact h.1.1.1.1.1.1.1.2
  · exact .fail _

/-- What is declared in a loop over a range before its body. -/
def Outline.loop (o : Outline) : Option Var → Outline
  | none => o.enter .forLoop
  | some v => (o.enter .forLoop).declare v

@[simp] theorem Outline.leave_loop (o : Outline) (var : Option Var) : (o.loop var).leave = o := by
  cases var with
  | none => rfl
  | some v => exact leave_declare

theorem Outline.Proper.loop {var : Option Var} {ty : Ty} (ho : o.Proper) (hty : ty.proper)
    (hvar : ∀ v, var = some v → v.ty = ty) : (o.loop var).Proper := by
  cases var with
  | none => exact ho.enter _
  | some v => exact (ho.enter _).declare (Outline.declares_enterWith ..) (hvar v rfl ▸ hty)

theorem Outline.Opens.loop {L : List Scoping} (hL : o.Opens L) (var : Option Var) :
    (o.loop var).Opens (loopScoping var :: L) := by
  have henter : (o.enter .forLoop).Opens ([] :: L) := hL.enterWith .forLoop _
  cases var with
  | none => exact henter
  | some v => exact henter.declare (declares_enterWith ..)

theorem PlainRead.each {var : Option Var} {range : Range} {ty : Ty} {body : Block} {token : Token}
    {comment : Option String} (hrange : RangeRead (o.enter .forLoop) ty range)
    (hvar : ∀ v, var = some v → v.ty = ty) (hbody : StmtsRead (o.loop var) body.stmts) :
    PlainRead o (.each token comment var range body) := by
  refine ⟨rfl, fun _ => rfl, fun {F G L} hL hknown => ⟨?_, ?_⟩⟩
  · have hw : Weakens (o.enter .forLoop).func? F (o.enter .forLoop).scopes.ty? (varTy? G L) :=
      hknown.weakens hL
    exact hrange.checked hw hvar
  · obtain ⟨t, c, stmts⟩ := body
    have hresult : (o.loop var).scopes.result? = o.scopes.result? := by
      cases var with
      | none => rfl
      | some v => exact Outline.result?_declare
    have hloop : (o.loop var).scopes.inLoop = true := by
      cases var with
      | none => rfl
      | some v => exact Outline.inLoop_declare
    have hchecked := hbody.checked (F := F) (G := G) (hL.loop var).nest
    rw [hresult, hloop] at hchecked
    refine hchecked (.of_leave ?_ ?_) <;> rw [Outline.leave_afterAll, Outline.leave_loop]
    · exact hknown
    · exact hL.nonempty

section
variable {block : Blocks} (hblock : BlocksRead block) (ho : o.Proper)
include hblock ho

/-- The rest of a `for` loop after its head. -/
def eachEnd (block : Blocks) (token : Token) (head : EachHead) (var : Option Var) : Attempt Stmt := do
  let comment ← OptionT.lift comment?
  nextLine
  let body ← block [.end, .eof]
  leaveScope
  let endComment ← OptionT.lift blockEnd
  let some range := head.range | failure
  return .each token comment var range (body.withComment endComment)

theorem eachBody_parses (token : Token) :
    Parses (At φ (o.enter .forLoop)) (eachBody block token).run fun r s => φ ∧ match r with
      | some stmt => s.outline = o ∧ PlainRead o stmt
      | none => s.outline.leave = o := by
  unfold eachBody
  refine (Keeps.move State.moves_advance).liftThen fun _ => (eachHead_reads (ho.enter _)).andThen
    (fun s hφ hs => ⟨hφ.1, by rw [hs]; rfl⟩) fun head => ?_
  have hend {ψ : Prop} (var : Option Var) (hvar : ∀ v, var = some v → v.ty = head.ty)
      (hψ : ψ → φ ∧ HeadRead (o.enter .forLoop) head) (hproper : ψ → (o.loop var).Proper) :
      Parses (At ψ (o.loop var)) (eachEnd block token head var).run fun r s => φ ∧ match r with
          | some stmt => s.outline = o ∧ PlainRead o stmt
          | none => s.outline.leave = o := by
    refine (Keeps.look (f := State.comment?)).liftThen fun comment =>
      (Keeps.move State.moves_nextLine).liftThen fun _ =>
      (hblock.of_known _ fun h => hproper h.1.1).liftBind fun body =>
      (Parses.leaveScope (Outline.leave_afterAll _)).liftBind fun _ => blockEnd_keeps.liftThen fun endComment => ?_
    rw [Outline.leave_loop]
    split
    · next range hrange =>
      refine .pure fun s hs => ?_
      obtain ⟨⟨⟨⟨hφ, -⟩, -⟩, hbody⟩, -⟩ := hs.1
      obtain ⟨hφ, hhead⟩ := hψ hφ
      obtain ⟨range', hrange', hread⟩ := hhead.range
      cases hrange.symm.trans hrange'
      exact ⟨hφ, hs.2, .each hread hvar hbody⟩
    · next hnone =>
      refine .pure fun s hs => ?_
      obtain ⟨range, hrange, -⟩ := (hψ hs.1.1.1.1.1).2.range
      exact absurd hrange (hnone range)
  have hvar : ∀ v, (head.var.map fun v => { v with ty := head.ty }) = some v → v.ty = head.ty := by
    intro v hv
    obtain ⟨w, -, rfl⟩ := Option.map_eq_some_iff.1 hv
    rfl
  dsimp only
  revert hvar
  generalize (head.var.map fun v => { v with ty := head.ty }) = var
  intro hvar
  have hproper (h : (φ ∧ True) ∧ HeadRead (o.enter .forLoop) head) : (o.loop var).Proper := by
    obtain ⟨range, -, hrange⟩ := h.2.range
    exact ho.loop hrange.proper hvar
  have hrest := hend var hvar (fun h => ⟨h.1.1, h.2⟩) hproper
  cases var with
  | none =>
    show Parses _ (OptionT.run (pure PUnit.unit >>= _)) _
    rw [pure_bind]
    exact hrest
  | some v => exact (Parses.declareVar v).liftBind fun _ => hrest

theorem eachStmt_parses : Parses (At φ o) (eachStmt block).run (StmtPost o) := by
  unfold eachStmt
  rw [OptionT.run_mk]
  refine (Keeps.look (f := State.cur)).andThen fun token => (Parses.enterScope .forLoop).bind fun _ =>
    (eachBody_parses hblock ho token).bind fun r => ?_
  cases r with
  | none => exact Parses.dropScope.bind fun _ => .pure fun s hs => hs.2
  | some stmt =>
    refine .pure fun s hs => ?_
    exact ⟨hs.2.1.trans hs.2.2.after.symm, hs.2.2.stmtRead ho⟩

/-! ### Blocks -/

theorem statement_parses : Parses (At φ o) (statement block).run (StmtPost o) := by
  unfold statement
  refine Keeps.state.liftThen fun s => ?_
  split
  · exact ((Reads.move State.moves_advance).bind fun _ => .failure).stmtPost ho
  · exact emptyLine_keeps.stmtPost ho
  · exact emptyLine_keeps.stmtPost ho
  · split
    · exact (assignment_reads ho).stmtPost ho
    · exact (assignment_reads ho).stmtPost ho
    · exact (typedDecl_parses ho).lift fun _ _ h => h
    · exact inferredDecl_parses ho
    · split
      · exact (callStmt_reads ho).stmtPost ho
      · split
        · exact (assignment_reads ho).stmtPost ho
        · exact (Reads.orNextLine (.fail _)).stmtPost ho
  · exact (returnStmt_keeps ho).stmtPost ho
  · exact breakStmt_keeps.stmtPost ho
  · exact eachStmt_parses hblock ho
  · exact (whileStmt_reads hblock ho).stmtPost ho
  · exact (ifStmt_reads hblock ho).stmtPost ho
  · exact (Reads.orNextLine (.fail _)).stmtPost ho

end

theorem stmtsWithin_parses {block : Blocks} (hblock : BlocksRead block) (ends : List TokenKind)
    (fuel : Nat) (done : Array Stmt) (terminated : Bool) (hdone : φ → StmtsRead o done.toList) :
    Parses (At φ (o.afterAll done.toList)) (stmtsWithin block ends fuel done terminated) fun stmts =>
      At (φ ∧ StmtsRead o stmts) (o.afterAll stmts) := by
  induction fuel generalizing φ done terminated with
  | zero => exact .pure fun s hs => ⟨⟨hs.1, hdone hs.1⟩, hs.2⟩
  | succ fuel ih =>
    refine (Keeps.look (f := State.cur)).andThen fun token => ?_
    split
    · exact .pure fun s hs => ⟨⟨hs.1.1, hdone hs.1.1⟩, hs.2⟩
    refine (Parses.of_known (fun _ ho => statement_parses hblock ho) fun h => (hdone h.1).proper).bind fun r => ?_
    cases r with
    | none => exact (ih done terminated hdone).conseq (fun s hs => ⟨hs.1.1, hs.2⟩) fun _ _ => id
    | some stmt =>
    dsimp only
    split
    · refine Parses.bind (Q := fun _ _ => False) (.report fun s => by simp [State.report]) fun _ => ?_
      exact (ih done terminated hdone).conseq (fun s hs => hs.elim) fun _ _ => id
    · refine (ih (φ := φ ∧ StmtRead (o.afterAll done.toList) stmt) (done.push stmt) _ fun h => ?_).conseq
        (fun s hs => ⟨⟨hs.1.1, hs.2.2⟩, ?_⟩) fun _ _ hs => ⟨⟨hs.1.1.1, hs.1.2⟩, hs.2⟩
      · rw [Array.toList_push]
        exact (hdone h.1).concat h.2
      · rw [Array.toList_push, Outline.afterAll_concat]
        exact hs.2.1

theorem blockWithin_parses (fuel : Nat) : BlocksRead (blockWithin fuel) := by
  induction fuel with
  | zero => exact fun ends ho => .pure fun s hs => ⟨⟨hs.1, .nil ho⟩, hs.2⟩
  | succ fuel ih =>
    intro φ o ends ho
    have hend {ψ : Prop} (token : Token) (stmts : List Stmt) (hψ : ψ → φ ∧ StmtsRead o stmts) :
        Parses (At ψ (o.afterAll stmts)) (return Block.mk token none stmts : Parse Block)
          fun b => At (φ ∧ StmtsRead o b.stmts) (o.afterAll b.stmts) :=
      .pure fun s hs => ⟨hψ hs.1, hs.2⟩
    refine (Keeps.look (f := State.cur)).andThen fun token => Keeps.state.andThen fun s =>
      (stmtsWithin_parses ih ends _ #[] false fun _ => .nil ho).bind fun stmts => ?_
    dsimp only
    split
    · exact (Keeps.reportAt _ _ (A := fun _ => False)).andThen fun _ => hend token stmts fun h => h.2.elim
    · exact hend token stmts fun h => ⟨h.1.1.1, h.2⟩

theorem block_parses : BlocksRead block := by
  intro φ o ends ho
  refine Keeps.state.andThen fun s => (blockWithin_parses _ ends ho).conseq (fun _ => id) fun b s hs => ?_
  exact ⟨⟨hs.1.1.1, hs.1.2⟩, hs.2⟩

end TinyScript.Parsing
