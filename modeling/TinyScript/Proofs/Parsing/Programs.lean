import TinyScript.Proofs.Parsing.Signatures

/-!
# Programs that are read are checked

The bodies of functions and handlers are read where the globals declared so far are known, and all
globals of the program are there when they run. A program that is read without problems is checked
(`Program.checked_of_parse`).
-/

namespace TinyScript.Parsing

/-! ### Parameters -/

namespace Outline
variable {o : Outline} {L : List Scoping}

/-- Declares parameters in the innermost scope. -/
def declareAll (o : Outline) (params : List Var) : Outline :=
  params.foldl declare o

theorem declareAll_eq {α : Type} {f : Outline → α} (hf : ∀ o v, f (declare o v) = f o) (o : Outline)
    (params : List Var) : f (o.declareAll params) = f o := by
  induction params generalizing o with
  | nil => rfl
  | cons v params ih => exact (ih (o.declare v)).trans (hf o v)

/-- The parameters can be declared one after another. -/
def CanDeclare (o : Outline) : List Var → Prop
  | [] => True
  | v :: params => o.scopes.declares v.name = false ∧ (o.declare v).CanDeclare params

theorem Opens.declareAll {l : Scoping} {params : List Var} (h : o.Opens (l :: L))
    (hparams : o.CanDeclare params) :
    (o.declareAll params).Opens (params.foldl (fun l x => l.declare x.name x.ty) l :: L) := by
  induction params generalizing o l with
  | nil => exact h
  | cons v params ih => exact ih (h.declare hparams.1) hparams.2

theorem Proper.declareAll {params : List Var} (h : o.Proper) (hparams : o.CanDeclare params)
    (hty : ∀ v ∈ params, v.ty.proper) : (o.declareAll params).Proper := by
  induction params generalizing o with
  | nil => exact h
  | cons v params ih =>
    obtain ⟨hv, hrest⟩ := List.forall_mem_cons.1 hty
    exact ih (h.declare hparams.1 hv) hparams.2 hrest

end Outline

/-- The variables of a function's body at its start. -/
def allParams (sig : Signature) : List Var :=
  sig.params ++ (sig.variadic.map fun v => { v with ty := .array v.ty }).toList

theorem allParams_proper {sig : Signature} (hparams : ∀ v ∈ sig.params, v.ty.proper)
    (hvariadic : ∀ v, sig.variadic = some v → v.ty.proper) : ∀ v ∈ allParams sig, v.ty.proper := by
  intro v hv
  rcases List.mem_append.1 hv with hv | hv
  · exact hparams v hv
  · obtain ⟨w, hw, rfl⟩ := Option.map_eq_some_iff.1 (Option.mem_toList.1 hv)
    simpa [Ty.array, Ty.proper, Kind.isComposite] using hvariadic w hw

theorem scoping_eq (sig : Signature) : sig.scoping = paramsScoping (allParams sig) := by
  unfold Signature.scoping paramsScoping allParams
  cases sig.variadic with
  | none => simp
  | some v => simp

variable {φ : Prop} {o : Outline}

theorem declareParam_parses (v : Var) (ty : Ty) :
    Parses (At φ o) (declareParam v ty) fun _ =>
      At (φ ∧ o.scopes.declares v.name = false) (o.declare { v with ty }) :=
  (checkDecl_keeps v true).andThen fun _ =>
    (Parses.declareVar _).conseq (fun _ => id) fun _ _ hs => ⟨⟨hs.1.1, hs.1.2.2.1⟩, hs.2⟩

theorem forM_declareParam_parses (params : List Var) :
    Parses (At φ o) (params.forM fun v => declareParam v v.ty) fun _ =>
      At (φ ∧ o.CanDeclare params) (o.declareAll params) := by
  induction params generalizing φ o with
  | nil => exact .pure fun s hs => ⟨⟨hs.1, trivial⟩, hs.2⟩
  | cons v params ih =>
    refine (declareParam_parses v v.ty).bind fun _ => (ih (o := o.declare v)).conseq (fun _ => id) fun _ s hs => ?_
    exact ⟨⟨hs.1.1.1, hs.1.1.2, hs.1.2⟩, hs.2⟩

theorem Outline.canDeclare_append {params more : List Var} (h : o.CanDeclare params)
    (hmore : (o.declareAll params).CanDeclare more) : o.CanDeclare (params ++ more) := by
  induction params generalizing o with
  | nil => exact hmore
  | cons v params ih => exact ⟨h.1, ih h.2 hmore⟩

theorem declareParams_parses (sig : Signature) :
    Parses (At φ o) (declareParams sig) fun _ =>
      At (φ ∧ o.CanDeclare (allParams sig)) (o.declareAll (allParams sig)) := by
  refine (forM_declareParam_parses sig.params).bind fun _ => ?_
  unfold allParams
  cases sig.variadic with
  | none =>
    refine .pure fun s hs => ?_
    simpa using hs
  | some v =>
    refine (declareParam_parses v (.array v.ty)).conseq (fun _ => id) fun _ s hs => ⟨⟨hs.1.1.1, ?_⟩, ?_⟩
    · exact Outline.canDeclare_append hs.1.1.2 ⟨hs.1.2, trivial⟩
    · simpa [Outline.declareAll] using hs.2

/-! ### Bodies -/

/-- A place at the top of a program. -/
structure Outline.Top (o : Outline) : Prop where
  proper : o.Proper
  signed : o.Signed
  opens : o.Opens []
  inLoop : o.scopes.inLoop = false

/-- The body of a function or a handler is checked with its parameters. -/
theorem body_checked {kind : ScopeKind} {result : Ty} {params : List Var} {stmts : List Stmt}
    {F : Sigs} {G : Vars} (ho : o.Top) (hkind : kind ≠ .whileLoop ∧ kind ≠ .forLoop)
    (hparams : (o.enterWith kind (some result)).CanDeclare params)
    (hbody : StmtsRead ((o.enterWith kind (some result)).declareAll params) stmts)
    (hknown : o.KnownTo F G) :
    Stmt.AllChecked F G (some result) [paramsScoping params] false stmts := by
  have hresult : ((o.enterWith kind (some result)).declareAll params).scopes.result? = some result :=
    Outline.declareAll_eq (f := (·.scopes.result?)) (fun _ _ => Outline.result?_declare) _ params
  have hloop : ((o.enterWith kind (some result)).declareAll params).scopes.inLoop = false := by
    refine (Outline.declareAll_eq (f := (·.scopes.inLoop)) (fun _ _ => Outline.inLoop_declare) _ params).trans ?_
    have hinner := ho.inLoop
    simp only [Outline.enterWith, Scopes.enterWith, Scopes.inLoop, List.any_cons] at hinner ⊢
    simp [hinner, hkind]
  have hleave : ((o.enterWith kind (some result)).declareAll params).leave = o :=
    Outline.declareAll_eq (fun _ _ => Outline.leave_declare) _ params
  have hchecked := hbody.checked (F := F) (G := G) ((ho.opens.enterWith kind _).declareAll hparams)
  rw [hresult, hloop] at hchecked
  refine hchecked (.of_leave ?_ ?_) <;> rw [Outline.leave_afterAll, hleave]
  · exact hknown
  · exact ho.opens.nonempty

/-- A function with a known signature, whose body is checked if what `o` declares is known. -/
structure FunctionRead (o : Outline) (f : Function) : Prop where
  known : o.func? f.signature.name = some f.signature
  settled : Builtin.ofName? f.signature.name = none → f.signature.Settled
  body : ∀ {F G}, o.KnownTo F G →
    Stmt.AllChecked F G (some f.signature.result) [f.signature.scoping] false f.body.stmts
  terminates : f.signature.result.same .none ∨ f.body.terminates

theorem FunctionRead.checked {o : Outline} {f : Function} {F : Sigs} {G : Vars} (h : FunctionRead o f)
    (hknown : o.KnownTo F G) (hname : Builtin.ofName? f.signature.name = none) : f.Checked F G :=
  ⟨(h.settled hname).params, (h.settled hname).variadic, h.body hknown, h.terminates⟩

/-- The handler is checked if what `o` declares is known. -/
def HandlerRead (o : Outline) (h : Handler) : Prop :=
  ∀ {F G}, o.KnownTo F G → h.Checked F G

/-- The function after a body has been read. -/
theorem FunctionRead.mk_of_body {sig : Signature} {body : Block} (comment : Option String) (ho : o.Top)
    (hsig : o.func? sig.name = some sig)
    (hparams : (o.enterWith .func (some sig.result)).CanDeclare (allParams sig))
    (hbody : StmtsRead ((o.enterWith .func (some sig.result)).declareAll (allParams sig)) body.stmts)
    (hterminates : sig.result.same .none ∨ body.terminates) :
    FunctionRead o ⟨sig, body.withComment comment⟩ := by
  refine ⟨hsig, ho.signed.declared _ sig hsig, fun hknown => ?_, hterminates.imp_right fun h => ?_⟩
  · rw [scoping_eq]
    exact body_checked ho (by decide) hparams hbody hknown
  · obtain ⟨t, c, stmts⟩ := body
    exact h

/-- After a function has been read where `o` is declared. -/
def FunctionPost (o : Outline) (r : Option Stmt) (s : State) : Prop :=
  ∃ declared, s.outline = { o with declared } ∧ (∀ f ∈ declared, f ∈ o.declared ∨ FunctionRead o f) ∧
    ∀ stmt, r = some stmt → ∃ token comment sig body, stmt = .func token comment sig body

theorem FunctionPost.none {s : State} (h : s.outline = o) : FunctionPost o none s :=
  ⟨o.declared, h, fun _ => .inl, nofun⟩

theorem func?_name {name : String} {sig : Signature} (h : o.func? name = some sig) : sig.name = name := by
  simpa using List.find?_some h

/-- The rest of a function after its body, with the signature that was found for its name. -/
def functionEnd (token nameToken : Token) (comment : Option String) (sig? : Option Signature) (body : Block) :
    Attempt Stmt := do
  let endComment ← OptionT.lift blockEnd
  let some sig := sig? | failure
  if nameToken.kind ≠ .ident then failure
  if (← get).declared.any (·.signature.name == sig.name) then failure
  let body := body.withComment endComment
  modify fun s => { s with declared := s.declared.push ⟨sig, body⟩ }
  return .func token comment sig body

theorem function_parses (ho : φ → o.Top) : Parses (At φ o) function.run (FunctionPost o) := by
  have hend {ψ : Prop} (token nameToken : Token) (comment : Option String) (sig? : Option Signature)
      (body : Block) (hψ : ψ → ∀ sig, sig? = some sig → ∀ endComment, FunctionRead o ⟨sig, body.withComment endComment⟩) :
      Parses (At ψ o) (functionEnd token nameToken comment sig? body).run (FunctionPost o) := by
    refine blockEnd_keeps.liftThen fun endComment => ?_
    split
    · next sig =>
      refine Reads.ifFailThen .failure (fun s _ hs => .none hs) <| Keeps.state.liftThen fun s =>
        Reads.ifFailThen .failure (fun s _ hs => .none hs) ?_
      refine Parses.liftBind (Q := fun _ => FunctionPost o (some (.func token comment sig (body.withComment endComment))))
        (.step (fun _ => rfl) fun s hs => ?_) fun _ => .pure fun _ => id
      refine ⟨o.declared.push ⟨sig, body.withComment endComment⟩, ?_, fun f hf => ?_, ?_⟩
      · rw [← hs.2]
        rfl
      · rw [Array.mem_push] at hf
        rcases hf with hf | rfl
        · exact .inl hf
        · exact .inr (hψ hs.1.1.1.1.1 sig rfl endComment)
      · rintro stmt ⟨⟩
        exact ⟨token, comment, sig, _, rfl⟩
    · exact Parses.pure fun s hs => .none hs.2
  unfold function
  refine (Keeps.look (f := State.cur)).liftThen fun token => (Keeps.move State.moves_advance).liftThen fun _ =>
    (Keeps.look (f := State.cur)).liftThen fun nameToken => (Keeps.move State.moves_toLineEnd).liftThen fun _ =>
    Keeps.state.liftThen fun s => (Keeps.move State.moves_nextLine).liftThen fun _ => ?_
  dsimp only
  generalize hsig : s.func? nameToken.literal = sig?
  refine (Parses.enterScopeWith _ _).liftBind fun _ => ?_
  have hbody {ψ : Prop} (o' : Outline) (result : Ty) (comment : Option String) (hleave : o'.leave = o)
      (hproper : ψ → o'.Proper)
      (hread : ψ → ∀ sig (body : Block), sig? = some sig → StmtsRead o' body.stmts →
        (result.same .none ∨ body.terminates) → ∀ comment, FunctionRead o ⟨sig, body.withComment comment⟩) :
      Parses (At ψ o') (OptionT.run do
        let body ← block [.end, .eof]
        leaveScope
        if !result.same .none && !body.terminates then
          report .missingReturn
        functionEnd token nameToken comment sig? body) (FunctionPost o) := by
    refine (block_parses.of_known _ hproper).liftBind fun body =>
      (Parses.leaveScope ((Outline.leave_afterAll _).trans hleave)).liftBind fun _ => ?_
    dsimp only
    split
    · exact (Keeps.reportHere _ (A := fun _ => False)).liftThen fun _ => hend _ _ _ _ body fun h => h.2.elim
    · next hterminates =>
      refine hend _ _ _ _ body fun h sig hsig => hread h.1 sig body hsig h.2 ?_
      rw [Bool.and_eq_true, not_and_or] at hterminates
      simpa using hterminates
  cases sig? with
  | none =>
    show Parses _ (OptionT.run (pure PUnit.unit >>= _)) _
    rw [pure_bind]
    refine hbody _ _ none rfl (fun h => ?_) fun _ sig body hnone => by cases hnone
    exact (ho h.1.1.1.1.1.1).proper.enterWith _ fun τ hτ => .inr (Option.some.inj hτ ▸ rfl)
  | some sig =>
    have hfunc {ψ : Prop} (h : ((ψ ∧ s.outline = o) ∧ True)) : o.func? sig.name = some sig := by
      have hname : o.func? nameToken.literal = some sig := by
        rw [← h.1.2]
        exact hsig
      rwa [func?_name hname]
    refine (declareParams_parses sig).liftBind fun _ => hbody _ _ _ ?_ (fun h => ?_)
      fun h sig' body hsig' hstmts hterminates comment => ?_
    · exact Outline.declareAll_eq (fun _ _ => Outline.leave_declare) _ _
    · have htop := (ho h.1.1.1.1.1.1.1).proper
      refine (htop.enterWith _ fun τ hτ => ?_).declareAll h.2 fun v hv => ?_
      · exact Option.some.inj hτ ▸ htop.result _ sig (hfunc h.1)
      · exact allParams_proper (htop.params _ sig (hfunc h.1)) (htop.variadic _ sig (hfunc h.1)) v hv
    · cases hsig'
      exact .mk_of_body comment (ho h.1.1.1.1.1.1.1) (hfunc h.1) h.2 hstmts hterminates

/-! ### Handlers -/

theorem eventParamsWithin_keeps (fuel : Nat) (done : Array Var)
    (hdone : φ → ∀ v ∈ done.toList, v.ty.settled) :
    Keeps φ o (eventParamsWithin fuel done) fun vs => ∀ v ∈ vs, v.ty.settled := by
  induction fuel generalizing φ done with
  | zero => exact .pure hdone
  | succ fuel ih =>
    refine (Keeps.look (f := State.atLineEnd)).bind fun ended => ?_
    split
    · exact .pure fun h => hdone h.1
    · refine (Keeps.expect _).bind fun _ => typedVar_keeps.bind fun r => ih (done.push r.1) fun h v hv => ?_
      rw [Array.toList_push, List.mem_append, List.mem_singleton] at hv
      rcases hv with hv | rfl
      · exact hdone h.1.1.1 v hv
      · exact h.2.1

theorem declareEventParams_parses (params expected : List Var) :
    Parses (At φ o) (declareEventParams params expected) fun _ =>
      At (φ ∧ o.CanDeclare params) (o.declareAll params) := by
  induction params generalizing φ o expected with
  | nil => exact .pure fun s hs => ⟨⟨hs.1, trivial⟩, hs.2⟩
  | cons v params ih =>
    have hfits {ψ : Prop} : Keeps ψ o (expected.head?.forM fun e => do
        unless v.ty.fits e.ty do
          report (.parameterType v.name e.ty v.ty)) fun _ => True := by
      cases expected.head? with
      | none => exact .pure fun _ => trivial
      | some e =>
        show Keeps ψ o (unless v.ty.fits e.ty do report (.parameterType v.name e.ty v.ty)) _
        split
        · exact .pure fun _ => trivial
        · exact .reportHere _
    refine (checkDecl_keeps v true).andThen fun _ => hfits.andThen fun _ => (Parses.declareVar v).bind fun _ =>
      (ih expected.tail).conseq (fun _ => id) fun _ s hs => ?_
    exact ⟨⟨hs.1.1.1.1, hs.1.1.1.2.2.1, hs.1.2⟩, hs.2⟩

theorem checkEventParams_parses (name : String) (params : List Var)
    (hevent : φ → ((o.prelude.event? name).isNone = false)) :
    Parses (At φ o) (checkEventParams name params) fun _ =>
      At (φ ∧ o.CanDeclare params) (o.declareAll params) := by
  unfold checkEventParams
  dsimp only
  split
  · next hempty =>
    obtain rfl := List.isEmpty_iff.1 hempty
    exact .pure fun s hs => ⟨⟨hs.1, trivial⟩, hs.2⟩
  refine Keeps.state.andThen fun s => ?_
  split
  · next hnone =>
    refine .pure fun s' hs => ?_
    have := hevent hs.1.1
    rw [← hs.1.2] at this
    simp [State.outline, hnone] at this
  · next event _ =>
    have hdeclare {ψ : Prop} (hψ : ψ → φ) : Parses (At ψ o) (declareEventParams params event.params) fun _ =>
        At (φ ∧ o.CanDeclare params) (o.declareAll params) :=
      (declareEventParams_parses params event.params).conseq (fun _ => id)
        fun _ s hs => ⟨⟨hψ hs.1.1, hs.1.2⟩, hs.2⟩
    split
    · exact (Keeps.reportHere _ (A := fun _ => False)).andThen fun _ => hdeclare fun h => h.2.elim
    · exact hdeclare fun h => h.1

/-- After a handler has been read where `o` is declared. -/
def HandlerPost (o : Outline) (r : Option Stmt) (s : State) : Prop :=
  ∃ handlers, s.outline = { o with handlers } ∧ (∀ h ∈ handlers, h ∈ o.handlers ∨ HandlerRead o h) ∧
    ∀ stmt, r = some stmt → ∃ token comment name params body, stmt = .on token comment name params body

theorem HandlerPost.none {s : State} (h : s.outline = o) : HandlerPost o none s :=
  ⟨o.handlers, h, fun _ => .inl, nofun⟩

theorem handler_parses (ho : φ → o.Top) : Parses (At φ o) handler.run (HandlerPost o) := by
  unfold handler
  refine (Keeps.look (f := State.cur)).liftThen fun token => (Keeps.move State.moves_advance).liftThen fun _ =>
    (Reads.orNextLine (.require _)).andThen (fun s _ hs => .none hs) fun _ =>
    (Keeps.look (f := State.cur)).liftThen fun nameToken => Keeps.state.liftThen fun s => ?_
  dsimp only
  generalize hproblem : s.handlerProblem? nameToken.literal = problem
  have hrest {ψ : Prop} (hψ : ψ → φ ∧ s.outline = o ∧ problem = none) : Parses (At ψ o) (OptionT.run do
      advance
      let params ← eventParamsWithin (← get).fuel #[]
      let comment ← OptionT.lift comment?
      nextLine
      enterScopeWith .handler (some .none)
      checkEventParams nameToken.literal params
      let body ← block [.end, .eof]
      leaveScope
      let endComment ← OptionT.lift blockEnd
      let body := body.withComment endComment
      if problem.isNone then
        modify fun s => { s with handlers := s.handlers.push ⟨nameToken.literal, params, body⟩ }
      return .on token comment nameToken.literal params body) (HandlerPost o) := by
    refine (Keeps.move State.moves_advance).liftThen fun _ => Keeps.state.liftThen fun _ =>
      (eventParamsWithin_keeps _ _ fun _ v hv => by cases hv).liftThen fun params =>
      (Keeps.look (f := State.comment?)).liftThen fun comment => (Keeps.move State.moves_nextLine).liftThen fun _ =>
      (Parses.enterScopeWith _ _).liftBind fun _ =>
      (checkEventParams_parses nameToken.literal params fun h => ?_).liftBind fun _ =>
      (block_parses.of_known _ fun h => ?_).liftBind fun body =>
      (Parses.leaveScope ((Outline.leave_afterAll _).trans
        (Outline.declareAll_eq (fun _ _ => Outline.leave_declare) _ _))).liftBind fun _ =>
      blockEnd_keeps.liftThen fun endComment => ?_
    · obtain ⟨-, hs, rfl⟩ := hψ h.1.1.1.1.1
      have hprelude : s.prelude = (o.enterWith .handler (some .none)).prelude := by
        rw [← hs]
        rfl
      rw [← hprelude]
      unfold State.handlerProblem? at hproblem
      split at hproblem
      · cases hproblem
      · split at hproblem
        · cases hproblem
        · next hevent => exact Bool.eq_false_iff.2 hevent
    · have htop := (ho (hψ h.1.1.1.1.1.1).1).proper
      refine (htop.enterWith _ fun τ hτ => .inr (Option.some.inj hτ ▸ rfl)).declareAll h.2 fun v hv => ?_
      exact Ty.proper_of_settled (h.1.1.1.2 v hv)
    · dsimp only
      split
      · refine Parses.liftBind (Q := fun _ => HandlerPost o (some (.on token comment nameToken.literal params
          (body.withComment endComment)))) (.step (fun _ => rfl) fun s hs => ?_) fun _ => .pure fun _ => id
        obtain ⟨⟨hφ, hbody⟩, -⟩ := hs.1
        have hs : s.outline = o := hs.2
        refine ⟨o.handlers.push ⟨nameToken.literal, params, body.withComment endComment⟩, ?_, fun h hh => ?_, ?_⟩
        · rw [← hs]
          rfl
        · rw [Array.mem_push] at hh
          rcases hh with hh | rfl
          · exact .inl hh
          · refine .inr fun hknown => ?_
            exact body_checked (ho (hψ hφ.1.1.1.1.1.1).1) (by decide) hφ.2 hbody hknown
        · rintro stmt ⟨⟩
          exact ⟨token, comment, _, params, _, rfl⟩
      · next hsome =>
        refine .pure fun s hs => ?_
        obtain ⟨-, -, rfl⟩ := hψ hs.1.1.1.1.1.1.1.1.1
        exact absurd rfl hsome
  cases problem with
  | none =>
    show Parses _ (OptionT.run (pure PUnit.unit >>= _)) _
    rw [pure_bind]
    exact hrest fun h => ⟨h.1.1.1.1.1, h.2, rfl⟩
  | some p => exact (Keeps.reportHere p (A := fun _ => False)).liftThen fun _ => hrest fun h => h.2.elim

/-! ### Programs -/

/-- Other functions and handlers. -/
def Outline.withBodies (o : Outline) (declared : Array Function) (handlers : Array Handler) : Outline :=
  { o with declared, handlers }

theorem Outline.after_withBodies (o : Outline) (declared : Array Function) (handlers : Array Handler)
    (stmt : Stmt) : (o.withBodies declared handlers).after stmt = (o.after stmt).withBodies declared handlers := by
  cases stmt <;> rfl

theorem Outline.KnownTo.withBodies {F : Sigs} {G : Vars} (h : o.KnownTo F G) (declared : Array Function)
    (handlers : Array Handler) : (o.withBodies declared handlers).KnownTo F G :=
  ⟨h.funcs, h.globals⟩

theorem StmtRead.of_withBodies {stmt : Stmt} {declared : Array Function} {handlers : Array Handler}
    (h : StmtRead (o.withBodies declared handlers) stmt) : StmtRead o stmt := by
  have hafter := Outline.after_withBodies o declared handlers stmt
  refine ⟨fun hL hknown => h.checked hL ?_, fun hL => ?_, ?_⟩
  · rw [hafter]
    exact hknown.withBodies ..
  · have hopens := h.opens hL
    rw [hafter] at hopens
    exact hopens
  · have hproper := h.proper
    rw [hafter] at hproper
    exact ⟨hproper.vars, hproper.returns, hproper.result, hproper.params, hproper.variadic⟩

theorem FunctionRead.of_withBodies {f : Function} {declared : Array Function} {handlers : Array Handler}
    (h : FunctionRead (o.withBodies declared handlers) f) : FunctionRead o f :=
  ⟨h.known, h.settled, fun hknown => h.body (hknown.withBodies ..), h.terminates⟩

theorem FunctionRead.after {f : Function} (h : FunctionRead o f) (stmt : Stmt) :
    FunctionRead (o.after stmt) f := by
  refine ⟨?_, h.settled, fun hknown => h.body hknown.of_after, h.terminates⟩
  have hfunc : (o.after stmt).func? f.signature.name = o.func? f.signature.name := by
    rcases Outline.after_eq o stmt with heq | ⟨v, heq⟩ <;> rw [heq]
    rfl
  rw [hfunc]
  exact h.known

/-- The statements in `done` have been read at the top of a program that starts where `o` is declared,
with the functions and handlers among them, and `o'` is declared now. -/
structure TopRead (o : Outline) (done : List Stmt) (o' : Outline) : Prop where
  outline : o' = (o.afterAll done).withBodies o'.declared o'.handlers
  stmts : StmtsRead o done
  funcs : ∀ f ∈ o'.declared, FunctionRead (o.afterAll done) f
  handlers : ∀ h ∈ o'.handlers, HandlerRead (o.afterAll done) h

namespace TopRead
variable {done : List Stmt} {stmt : Stmt} {o' : Outline}

theorem top (h : TopRead o done o') (ho : o.Top) : o'.Top := by
  have hproper := h.stmts.proper
  have hopens := h.stmts.opens ho.opens
  have hscopings : scopingsAfter [] done = [] := by
    clear hopens h hproper
    induction done with
    | nil => rfl
    | cons stmt done ih =>
      have hstmt : stmt.scopings [] = [] := by cases stmt <;> rfl
      rw [scopingsAfter, List.foldl_cons, hstmt]
      exact ih
  have hfuncs : ∀ name, (o.afterAll done).func? name = o.func? name := fun name => by
    rw [Outline.func?, Outline.funcs_afterAll]
    rfl
  have hprelude : (o.afterAll done).prelude = o.prelude :=
    Outline.afterAll_eq (f := Outline.prelude) (fun _ _ => rfl) o done
  rw [hscopings] at hopens
  rw [h.outline]
  refine ⟨⟨hproper.vars, hproper.returns, hproper.result, hproper.params, hproper.variadic⟩,
    ⟨hprelude.trans ho.signed.prelude, fun name b hb => ?_, fun name sig hsig => ?_⟩, hopens, ?_⟩
  · exact (hfuncs name).trans (ho.signed.builtin name b hb)
  · exact ho.signed.declared name sig ((hfuncs name).symm.trans hsig)
  · exact (Outline.inLoop_afterAll done).trans ho.inLoop

theorem concat (h : TopRead o done o') (hstmt : StmtRead o' stmt) :
    TopRead o (done ++ [stmt]) (o'.after stmt) := by
  have hread : StmtRead (o.afterAll done) stmt := by
    rw [h.outline] at hstmt
    exact hstmt.of_withBodies
  have hdeclared : (o'.after stmt).declared = o'.declared := by
    rcases Outline.after_eq o' stmt with heq | ⟨v, heq⟩ <;> rw [heq]
    rfl
  have hhandlers : (o'.after stmt).handlers = o'.handlers := by
    rcases Outline.after_eq o' stmt with heq | ⟨v, heq⟩ <;> rw [heq]
    rfl
  refine ⟨?_, h.stmts.concat hread, ?_, ?_⟩ <;> rw [Outline.afterAll_concat]
  · rw [hdeclared, hhandlers, ← Outline.after_withBodies, ← h.outline]
  · rw [hdeclared]
    exact fun f hf => (h.funcs f hf).after stmt
  · rw [hhandlers]
    exact fun f hf F G hknown => h.handlers f hf hknown.of_after

theorem bodies (h : TopRead o done o') {declared : Array Function} {handlers : Array Handler}
    (hfuncs : ∀ f ∈ declared, f ∈ o'.declared ∨ FunctionRead o' f)
    (hhandlers : ∀ f ∈ handlers, f ∈ o'.handlers ∨ HandlerRead o' f) :
    TopRead o done (o'.withBodies declared handlers) := by
  refine ⟨?_, h.stmts, fun f hf => ?_, fun f hf => ?_⟩
  · rw [h.outline]
    rfl
  · rcases hfuncs f hf with hf | hf
    · exact h.funcs f hf
    · rw [h.outline] at hf
      exact hf.of_withBodies
  · rcases hhandlers f hf with hf | hf
    · exact h.handlers f hf
    · rw [h.outline] at hf
      exact fun hknown => hf (hknown.withBodies ..)

/-- A function or a handler among the statements. -/
theorem concat? (h : TopRead o done o') (ho : o.Top) {r : Option Stmt}
    (hr : ∀ stmt, r = some stmt → PlainRead o' stmt) : TopRead o (done ++ r.toList) o' := by
  cases r with
  | none => simpa using h
  | some stmt =>
    have hplain := hr stmt rfl
    have hconcat := h.concat (hplain.stmtRead (h.top ho).proper)
    rwa [hplain.after] at hconcat

end TopRead

theorem programWithin_parses (ho : o.Top) (fuel : Nat) (done : Array Stmt) (terminated : Bool) :
    Parses (fun s => TopRead o done.toList s.outline) (programWithin fuel done terminated)
      fun stmts s => TopRead o stmts s.outline := by
  induction fuel generalizing done terminated with
  | zero => exact .pure fun s hs => hs
  | succ fuel ih =>
    refine .atOutline fun o' => (Keeps.look (f := State.cur)).andThen fun token => ?_
    split
    · exact .pure fun s hs => hs.2 ▸ hs.1.1
    · have hfunction : Parses (At (TopRead o done.toList o' ∧ ∃ s : State, s.outline = o' ∧ s.cur = token) o')
          function.run fun r s => TopRead o (done ++ r.toArray).toList s.outline := by
        refine ((function_parses fun h => TopRead.top h.1 ho).frame (φ := TopRead o done.toList o')).conseq
          (fun s hs => ⟨hs.1.1, hs⟩) ?_
        rintro r s ⟨htop, declared, hs, hfuncs, hr⟩
        have hbodies := (htop.bodies hfuncs fun _ => .inl).concat? ho fun stmt hstmt => by
          obtain ⟨t, c, sig, body, rfl⟩ := hr stmt hstmt
          exact ⟨rfl, fun _ => rfl, fun _ _ => trivial⟩
        rw [hs, Array.toList_append, Option.toList_toArray]
        exact hbodies
      exact hfunction.bind fun r => ih _ terminated
    · have hhandler : Parses (At (TopRead o done.toList o' ∧ ∃ s : State, s.outline = o' ∧ s.cur = token) o')
          handler.run fun r s => TopRead o (done ++ r.toArray).toList s.outline := by
        refine ((handler_parses fun h => TopRead.top h.1 ho).frame (φ := TopRead o done.toList o')).conseq
          (fun s hs => ⟨hs.1.1, hs⟩) ?_
        rintro r s ⟨htop, handlers, hs, hhandlers, hr⟩
        have hbodies := (htop.bodies (fun _ => .inl) hhandlers).concat? ho fun stmt hstmt => by
          obtain ⟨t, c, name, params, body, rfl⟩ := hr stmt hstmt
          exact ⟨rfl, fun _ => rfl, fun _ _ => trivial⟩
        rw [hs, Array.toList_append, Option.toList_toArray]
        exact hbodies
      exact hhandler.bind fun r => ih _ terminated
    · refine (Parses.of_known (fun _ ho => statement_parses block_parses ho)
        fun h => (TopRead.top h.1 ho).proper).bind fun r => ?_
      cases r with
      | none => exact (ih done terminated).conseq (fun s hs => hs.2 ▸ hs.1.1) fun _ _ => id
      | some stmt =>
        dsimp only
        split
        · refine Parses.bind (Q := fun _ _ => False) (.report fun s => by simp [State.report]) fun _ => ?_
          exact (ih done terminated).conseq (fun s hs => hs.elim) fun _ _ => id
        · refine (ih (done.push stmt) _).conseq (fun s hs => ?_) fun _ _ => id
          rw [Array.toList_push, hs.2.1]
          exact hs.1.1.concat hs.2.2

/-- The scope of a program has the globals of the standard host first. -/
def Outline.withGlobals (o : Outline) : Outline :=
  { o with scopes := [⟨.program, #[⟨.builtin "err" .bool, true⟩, ⟨.builtin "errmsg" .string, true⟩], none⟩] }

theorem Outline.Start.top (h : o.Start) : o.withGlobals.Top := by
  have hsigned : o.withGlobals.Signed := ⟨h.prelude, h.builtin, h.declared⟩
  refine ⟨hsigned.proper (fun name τ hτ => ?_) nofun, hsigned, ⟨[], _, rfl, by simp, fun _ => rfl⟩, rfl⟩
  obtain ⟨scope, hscope, hτ⟩ := List.exists_of_findSome?_eq_some hτ
  obtain rfl := List.mem_singleton.1 hscope
  obtain ⟨x, hx, rfl⟩ := Option.map_eq_some_iff.1 hτ
  have hmem := Array.mem_of_find?_eq_some hx
  simp only [List.mem_toArray, List.mem_cons, List.not_mem_nil, or_false] at hmem
  rcases hmem with rfl | rfl <;> rfl

theorem Parses.chosen {ι α : Type} {C : ι → Prop} {P : ι → State → Prop} {m : Parse α}
    {Q : α → State → Prop} {i₀ : ι} (hi₀ : C i₀) (h : ∀ i, C i → Parses (P i) m Q) :
    Parses (fun s => ∃ i, C i ∧ P i s) m Q := by
  intro s hs hclean
  by_cases hc : s.Clean
  · obtain ⟨i, hi, hP⟩ := hs hc
    exact h i hi s (fun _ => hP) hclean
  · exact h i₀ hi₀ s (fun h => absurd h hc) hclean

/-- A program has been read from where only signatures are known. -/
def ProgramRead (p : Program) : Prop :=
  ∃ o o' : Outline, o.Start ∧ TopRead o.withGlobals p.stmts o' ∧ p.funcs = o'.declared.toList ∧
    p.handlers = o'.handlers.toList

theorem program_parses : Parses (fun s => s.outline.Start) program fun p _ => ProgramRead p := by
  have hrest (o : Outline) (ho : o.Start) : Parses (fun s => s.outline = o.withGlobals) (do
      let stmts ← programWithin (← get).fuel #[] false
      leaveScope
      let s ← get
      return (⟨stmts, s.declared.toList, s.handlers.toList⟩ : Program)) fun p _ => ProgramRead p := by
    refine (Parses.state (Q := fun _ s => TopRead o.withGlobals [] s.outline) fun s hs => ?_).bind fun _ =>
      (programWithin_parses ho.top _ #[] false).bind fun stmts => .atOutline fun o' =>
      (Parses.leaveScope rfl).bind fun _ => Keeps.state.andThen fun s => .pure fun _ hs => ?_
    · rw [hs]
      exact ⟨rfl, .nil ho.top.proper, fun f hf => by simp [Outline.withGlobals, ho.declared_empty] at hf,
        fun f hf => by simp [Outline.withGlobals, ho.handlers_empty] at hf⟩
    · have hout : s.outline = o'.leave := hs.1.2
      refine ⟨o, o', ho, hs.1.1, ?_, ?_⟩
      · show s.outline.declared.toList = _
        rw [hout]
        rfl
      · show s.outline.handlers.toList = _
        rw [hout]
        rfl
  have henter : Parses (fun s => s.outline.Start) (enterScopeWith .program none)
      fun _ s => ∃ o, Outline.Start o ∧ s.outline = o.enterWith .program none := by
    refine .step (fun _ => rfl) fun s hs => ⟨s.outline, hs, ?_⟩
    simp [State.outline, Outline.enterWith, Scopes.asRead_enterWith]
  have hglobals : Parses (fun s => ∃ o, Outline.Start o ∧ s.outline = o.enterWith .program none)
      (modify fun s =>
        { s with scopes := s.prelude.globals.foldl (fun ss v => ss.declare v true) s.scopes, pos := 0 })
      fun _ s => ∃ o, Outline.Start o ∧ s.outline = o.withGlobals := by
    refine .step (fun _ => rfl) fun s hs => ?_
    obtain ⟨o, ho, hs⟩ := hs
    refine ⟨o, ho, ?_⟩
    have hprelude : s.prelude = .standard := (congrArg Outline.prelude hs).trans ho.prelude
    have hscopes : s.scopes.asRead = [⟨.program, #[], none⟩] := by
      refine (congrArg Outline.scopes hs).trans ?_
      rw [Outline.enterWith, ho.scopes_empty]
      rfl
    show ({ s.outline with scopes := Scopes.asRead (s.prelude.globals.foldl (fun ss v => ss.declare v true) s.scopes) } :
      Outline) = _
    rw [hprelude, hs]
    simp only [Prelude.standard, List.foldl_cons, List.foldl_nil, Scopes.asRead_declare, hscopes]
    rfl
  exact (Parses.state (Q := fun _ s => s.outline.Start) fun _ => id).bind fun s =>
    (signatures_parses _).bind fun _ => henter.bind fun _ => hglobals.bind fun _ => .chosen (start_start "") hrest

end TinyScript.Parsing

namespace TinyScript
open Parsing

/-- The variables of the outermost scope. -/
def Parsing.Outline.outermost (o : Outline) : Vars :=
  fun name => o.scopes.getLast?.bind (·.ty? name)

/-- A program that has been read is checked, with the variables of its outermost scope as globals, and
so is the body of every function in it. -/
theorem Program.checked_of_read {p : Program} (h : ProgramRead p) : ∃ o : Outline, o.Start ∧
    p.Checked (o.withGlobals.afterAll p.stmts).outermost ∧ ∀ f ∈ p.funcs,
    Stmt.AllChecked p.func? (o.withGlobals.afterAll p.stmts).outermost (some f.signature.result)
      [f.signature.scoping] false f.body.stmts := by
  obtain ⟨o, o', ho, htop, hfuncs, hhandlers⟩ := h
  have hknown : (o.withGlobals.afterAll p.stmts).KnownTo p.func?
      (o.withGlobals.afterAll p.stmts).outermost := by
    refine ⟨fun name sig hsig => ?_, fun outermost hlast name τ hτ => by rw [Outline.outermost, hlast]; exact hτ⟩
    unfold Program.func? at hsig
    split at hsig
    · next b hb =>
      rw [Outline.func?, Outline.funcs_afterAll]
      exact (ho.builtin name b hb).trans hsig
    · obtain ⟨f, hf, rfl⟩ := Option.map_eq_some_iff.1 hsig
      have hname : f.signature.name = name := by simpa using List.find?_some hf
      have hmem : f ∈ o'.declared := Array.mem_def.2 (hfuncs ▸ List.mem_of_find?_eq_some hf)
      exact hname ▸ (htop.funcs f hmem).known
  have hread (f : Function) (hf : f ∈ p.funcs) : FunctionRead (o.withGlobals.afterAll p.stmts) f :=
    htop.funcs f (Array.mem_def.2 (hfuncs ▸ hf))
  have hstart := hknown.of_afterAll
  refine ⟨o, ho, ⟨⟨hstart.globals _ rfl "err" .bool rfl, hstart.globals _ rfl "errmsg" .string rfl⟩,
    htop.stmts.checked ho.top.opens hknown, fun f hf => (hread f hf).checked hknown, fun f hf => ?_⟩,
    fun f hf => (hread f hf).body hknown⟩
  exact htop.handlers f (Array.mem_def.2 (hhandlers ▸ hf)) hknown

/-- A function with a result ends in one in a program that has been read. -/
theorem Program.terminates_of_read {p : Program} (h : ProgramRead p) (f : Function) (hf : f ∈ p.funcs) :
    f.signature.result.same .none ∨ f.body.terminates := by
  obtain ⟨o, o', -, htop, hfuncs, -⟩ := h
  exact (htop.funcs f (Array.mem_def.2 (hfuncs ▸ hf))).terminates

theorem Program.analyze_eq (source : String) (prelude : Prelude) : Program.analyze source prelude =
    ((program.run (State.start source prelude)).1, (program.run (State.start source prelude)).2.problems.toList) := by
  unfold Program.analyze
  dsimp only [Id.run]
  generalize program.run (State.start source prelude) = r
  obtain ⟨p, s⟩ := r
  rfl

/-- A program that has nothing wrong with it is read without problems. -/
theorem Program.clean_of_parse {source : String} {prelude : Prelude} {p : Program}
    (h : Program.parse source prelude = .ok p) :
    (program.run (State.start source prelude)).2.Clean ∧ (program.run (State.start source prelude)).1 = p := by
  unfold Program.parse at h
  rw [analyze_eq] at h
  generalize program.run (State.start source prelude) = r at h
  split at h
  · next q heq =>
    obtain ⟨hq, hproblems⟩ := Prod.mk.inj heq
    exact ⟨by simpa [State.Clean] using hproblems, hq.trans (Except.ok.inj h)⟩
  · cases h

/-- A program that is read without problems has been read. -/
theorem Program.read_of_parse {source : String} {p : Program}
    (h : Program.parse source .standard = .ok p) : ProgramRead p := by
  obtain ⟨hclean, rfl⟩ := clean_of_parse h
  exact (program_parses _ (fun _ => start_start source) hclean).2

/-- A program that is read without problems is checked. -/
theorem Program.checked_of_parse {source : String} {p : Program}
    (h : Program.parse source .standard = .ok p) : ∃ G, p.Checked G := by
  obtain ⟨o, -, hc, -⟩ := checked_of_read (read_of_parse h)
  exact ⟨_, hc⟩

end TinyScript
