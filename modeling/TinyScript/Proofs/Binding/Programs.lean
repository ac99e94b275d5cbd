import Mathlib.Data.List.Pairwise
import TinyScript.Proofs.Binding.Signatures
import TinyScript.Proofs.Parsing.Termination

/-!
# Programs are lexically closed

The functions and handlers of a program are read where its variables so far are declared. A program that
is read without problems is closed (`Program.closed_of_parse`).
-/

namespace TinyScript.Parsing

variable {σ s t : State} {sc : Scope} {outer : Scopes} {vars more : List Var} {φ : Prop} {q : Nat}

/-! ### Parameters -/

/-- The parser declares variables that are new in the innermost scope. -/
def Declares (vars : List Var) (m : Parse PUnit) : Prop :=
  ∀ (σ : State) (sc : Scope) (outer : Scopes), σ.scopes = sc :: outer →
    Parses (Reading σ []) m fun _ s => σ.Fresh vars ∧ Reading (σ.declareVars vars) [] s

namespace Declares
variable {m m' : Parse PUnit}

theorem none : Declares [] (pure ⟨⟩) :=
  fun _ _ _ _ => .pure fun _ hs => ⟨.nil _, hs⟩

theorem append (hm : Declares vars m) (hm' : Declares more m') :
    Declares (vars ++ more) (m >>= fun _ => m') := by
  intro σ sc outer hσ
  obtain ⟨t, ht, -⟩ := State.exists_declareVars_mark hσ [] vars
  refine (hm _ _ _ hσ).bind fun _ => (hm' _ _ _ ht).frame.post fun _ s hs => ⟨hs.1.append hσ hs.2.1, ?_⟩
  have happend : σ.declareVars (vars ++ more) = (σ.declareVars vars).declareVars more := by
    simp [State.declareVars, Scopes.declareAll]
  rw [happend]
  exact hs.2.2

end Declares

theorem declareParam_declares (v : Var) (ty : Ty) : Declares [{ v with ty }] (declareParam v ty) := by
  refine fun _ _ _ _ => (checkDecl_binds v true).bind fun _ => (declareVar_binds _).frame.post fun _ s hs => ?_
  exact ⟨.singleton (hs.1.2.untaken v List.mem_cons_self), hs.2.2⟩

theorem forM_declareParam_declares (params : List Var) :
    Declares params (params.forM fun v => declareParam v v.ty) := by
  induction params with
  | nil => exact .none
  | cons v params ih => exact (declareParam_declares v v.ty).append ih

theorem declareParams_declares (sig : Signature) : Declares (allParams sig) (declareParams sig) := by
  refine (forM_declareParam_declares sig.params).append ?_
  cases sig.variadic with
  | none => exact .none
  | some v => exact declareParam_declares v (.array v.ty)

theorem declareEventParams_declares (params expected : List Var) :
    Declares params (declareEventParams params expected) := by
  induction params generalizing expected with
  | nil => exact .none
  | cons v params ih =>
    have hfits {P : State → Prop} : Parses P (expected.head?.forM fun e => do
        unless v.ty.fits e.ty do
          report (.parameterType v.name e.ty v.ty)) fun _ => P := by
      cases expected.head? with
      | none => exact .pure fun _ => id
      | some e =>
        show Parses P (unless v.ty.fits e.ty do report (.parameterType v.name e.ty v.ty)) _
        split
        · exact .pure fun _ => id
        · exact .reportHere _
    have hfirst : Declares [v] (do
        let _ ← checkDecl v true
        expected.head?.forM fun e => do
          unless v.ty.fits e.ty do
            report (.parameterType v.name e.ty v.ty)
        declareVar v) :=
      fun _ _ _ _ => (checkDecl_binds v true).bind fun _ => hfits.bind fun _ =>
        (declareVar_binds v).frame.post fun _ _ hs => ⟨hs.1.2, hs.2.2⟩
    have hall := hfirst.append (ih expected.tail)
    simp only [bind_assoc] at hall
    exact hall

theorem checkEventParams_binds (name : String) (params : List Var) (hσ : σ.scopes = sc :: outer) :
    Parses (fun s => (σ.prelude.event? name).isSome ∧ Reading σ [] s) (checkEventParams name params)
      fun _ s => σ.Fresh params ∧ Reading (σ.declareVars params) [] s := by
  unfold checkEventParams
  dsimp only
  split
  · next hempty =>
    obtain rfl := List.isEmpty_iff.1 hempty
    exact .pure fun s hs => ⟨.nil _, hs.2⟩
  refine Parses.bind (Q := fun t s => (t.prelude.event? name).isSome ∧ Reading σ [] s)
    (.state fun s hs => ⟨hs.2.prelude ▸ hs.1, hs.2⟩) fun t => ?_
  split
  · next hnone => exact .pure fun s hs => by simp [hnone] at hs
  · next event _ =>
    have hdeclare := declareEventParams_declares params event.params σ sc outer hσ
    split
    · exact .reportThen (.reportHere _) hdeclare
    · exact hdeclare.pre fun _ => And.right

/-! ### Functions -/

/-- The function at an index has a known name that no function so far has. -/
structure CanName (σ : State) (q : Nat) : Prop where
  ident : (σ.nameAt q).kind = .ident
  known : σ.isFunc (σ.nameAt q).literal
  new : ∀ f ∈ σ.declared, f.signature.name ≠ (σ.nameAt q).literal

/-- The function at an index has been read, and what its body reads around it is marked. -/
def FunctionBound (σ : State) (q : Nat) (stmt : Stmt) (s : State) : Prop :=
  ∃ token comment sig body, stmt = .func token comment sig body ∧ sig.name = (σ.nameAt q).literal ∧
    BlockBound σ (allParams sig) body ∧
    Reading { σ.mark (Block.free (allParams sig) body) with declared := σ.declared.push ⟨sig, body⟩ } [] s

/-- The signature that has been found for the name of the function at an index. -/
structure Found (σ : State) (q : Nat) (nameToken : Token) (sig? : Option Signature) : Prop
    extends CanName σ q where
  token : nameToken = σ.nameAt q
  sig : σ.func? (σ.nameAt q).literal = sig?

theorem Found.name_eq {nameToken : Token} {sig : Signature} (h : Found σ q nameToken (some sig)) :
    sig.name = (σ.nameAt q).literal := by
  simpa using List.find?_some h.sig

/-- The variables of a function's body at its start. -/
def foundParams (sig? : Option Signature) : List Var :=
  (sig?.map allParams).getD []

/-- A test that never holds. -/
theorem Tries.neverFails {α : Type} {P : State → Prop} {Q : α → State → Prop} {c : Prop} [Decidable c]
    {rest : Attempt α} (hc : ∀ s, P s → ¬ c) (hrest : Tries P rest Q) :
    Tries P (if c then Alternative.failure >>= fun (_ : PUnit) => rest else rest) Q := by
  split
  · next h => exact (failure fun s hs => hc s hs h).failThen fun _ => hrest
  · exact hrest

theorem functionEnd_binds (token nameToken : Token) (comment : Option String) (sig? : Option Signature)
    (body : Block) :
    Tries (fun s => (Found σ q nameToken sig? ∧ BlockBound σ (foundParams sig?) body) ∧
        Reading (σ.mark (Block.free (foundParams sig?) body)) [] s)
      (functionEnd token nameToken comment sig? body) (FunctionBound σ q) := by
  refine (Tries.lift blockEnd_parses).bind fun endComment => ?_
  -- the three ways to drop a function that has been read cannot happen where all signatures are named
  split
  · next sig =>
    refine .neverFails (fun s hs hident => hident (hs.1.1.token ▸ hs.1.1.ident)) ?_
    refine Tries.bind (Q := fun t s => t.declared = σ.declared ∧ (Found σ q nameToken (some sig) ∧
      BlockBound σ (allParams sig) body) ∧ Reading (σ.mark (Block.free (allParams sig) body)) [] s)
      (.lift (.state fun s hs => ⟨hs.2.declared, hs⟩)) fun t => .neverFails (fun s hs hany => ?_) ?_
    · obtain ⟨f, hf, hname⟩ := Array.any_eq_true'.1 hany
      rw [hs.1] at hf
      exact hs.2.1.1.new f hf ((beq_iff_eq.1 hname).trans hs.2.1.1.name_eq)
    · have hdeclare : State.IsUpdate fun s =>
          { s with declared := s.declared.push ⟨sig, body.withComment endComment⟩ } :=
        ⟨fun _ => rfl, fun _ => rfl, fun _ => rfl, fun _ => rfl, fun _ => rfl⟩
      refine (Tries.lift (Parses.become hdeclare).frame.frame).bind fun _ => .pure fun s hs => ?_
      obtain ⟨-, ⟨hfound, hbody⟩, hs⟩ := hs
      refine ⟨token, comment, sig, body.withComment endComment, rfl, hfound.name_eq,
        hbody.withComment endComment, ?_⟩
      rw [Block.free_withComment]
      exact hs
  · next hnone =>
    refine .failure fun s hs => ?_
    have hknown := hs.1.1.known
    rw [State.isFunc, hs.1.1.sig] at hknown
    exact (Option.isSome_iff_exists.1 hknown).elim hnone

theorem functionBody_binds (token nameToken : Token) (comment : Option String) (sig? : Option Signature)
    (result : Ty) :
    Tries (fun s => (Found σ q nameToken sig? ∧ (σ.enterWith .func (some result)).Fresh (foundParams sig?)) ∧
        Reading ((σ.enterWith .func (some result)).declareVars (foundParams sig?)) [] s) (do
      let body ← OptionT.lift (block [.end, .eof])
      leaveScope
      if !result.same .none && !body.terminates then
        report .missingReturn
      functionEnd token nameToken comment sig? body) (FunctionBound σ q) := by
  refine (Tries.lift (block_opens block_binds _ And.right)).bind fun body =>
    (Tries.lift closeBlock_binds).bind fun _ => ?_
  have hend := (functionEnd_binds (σ := σ) (q := q) token nameToken comment sig? body).pre
    (I := fun s => ((Found σ q nameToken sig? ∧ (σ.enterWith .func (some result)).Fresh (foundParams sig?)) ∧
      BlockBound σ (foundParams sig?) body) ∧ Reading (σ.mark (Block.free (foundParams sig?) body)) [] s)
    fun s hs => ⟨⟨hs.1.1.1, hs.1.2⟩, hs.2⟩
  dsimp only
  split
  · exact (Tries.lift (Parses.reportHere _)).failThen fun _ => hend
  · exact hend

theorem function_binds :
    Tries (fun s => CanName σ q ∧ Reading σ [] s ∧ s.pos = q) function (FunctionBound σ q) := by
  unfold function
  have hcur : Parses (fun s => CanName σ q ∧ Reading σ [] s ∧ s.cur = σ.nameAt q) (return (← get).cur)
      fun token s => (CanName σ q ∧ token = σ.nameAt q) ∧ Reading σ [] s :=
    Parses.look.post fun _ _ hs => ⟨⟨hs.1.1, hs.2 ▸ hs.1.2.2⟩, hs.1.2.1⟩
  have hget (nameToken : Token) : Parses (fun s => (CanName σ q ∧ nameToken = σ.nameAt q) ∧ Reading σ [] s) get
      fun t s => (CanName σ q ∧ nameToken = σ.nameAt q ∧ t.funcs = σ.funcs) ∧ Reading σ [] s :=
    .state fun s hs => ⟨⟨hs.1.1, hs.1.2, hs.2.funcs⟩, hs.2⟩
  refine Tries.peek.bind fun token => (Tries.lift advance_nameAt.frame).bind fun _ =>
    (Tries.lift hcur).bind fun nameToken =>
    (Tries.move State.alike_toLineEnd).bind fun _ => (Tries.lift (hget nameToken)).bind fun t =>
    (Tries.move State.alike_nextLine).bind fun _ => ?_
  dsimp only
  generalize hsig : t.func? nameToken.literal = sig?
  refine (Tries.lift (enterScopeWith_binds _ _).frame).bind fun _ => ?_
  have hfound (hs : CanName σ q ∧ nameToken = σ.nameAt q ∧ t.funcs = σ.funcs) : Found σ q nameToken sig? := by
    obtain ⟨hname, rfl, hfuncs⟩ := hs
    exact ⟨hname, rfl, by rw [← hsig, State.func?, State.func?, hfuncs]⟩
  cases sig? with
  | none =>
    show Tries _ (pure PUnit.unit >>= _) _
    rw [pure_bind]
    exact (functionBody_binds token nameToken none none _).pre fun s hs => ⟨⟨hfound hs.1, .nil _⟩, hs.2⟩
  | some sig =>
    refine Tries.bind (Tries.lift ((declareParams_declares sig) _ _ _ rfl).frame) fun _ =>
      (functionBody_binds token nameToken _ (some sig) _).pre fun s hs => ⟨⟨hfound hs.1, hs.2.1⟩, hs.2.2⟩

/-! ### Handlers -/

/-- The handler has been read, and what its body reads around it is marked. -/
def HandlerBound (σ : State) (stmt : Stmt) (s : State) : Prop :=
  ∃ token comment name params body, stmt = .on token comment name params body ∧ BlockBound σ params body ∧
    Reading { σ.mark (Block.free params body) with handlers := σ.handlers.push ⟨name, params, body⟩ } [] s

theorem eventParamsWithin_parses {P : State → Prop} [Stable P] (fuel : Nat) (done : Array Var) :
    Parses P (eventParamsWithin fuel done) fun _ => P := by
  induction fuel generalizing done with
  | zero => exact .pure fun _ => id
  | succ fuel ih =>
    refine Parses.peek.bind fun ended => ?_
    split
    · exact .pure fun _ => id
    · exact (expect_parses _).bind fun _ => typedVar_parses.bind fun r =>
        (ih (done.push r.1)).pre fun _ => And.right

theorem isSome_event? {name : String} (h : s.handlerProblem? name = none) :
    (s.prelude.event? name).isSome := by
  unfold State.handlerProblem? at h
  split at h
  · cases h
  · split at h
    · cases h
    · next hevent => simpa [Option.isSome_iff_ne_none] using hevent

/-- The rest of a handler after its name, for an event with a problem or without one. -/
def handlerEnd (token : Token) (name : String) (problem : Option Problem) : Attempt Stmt := do
  advance
  let params ← eventParamsWithin (← get).fuel #[]
  let comment ← OptionT.lift comment?
  nextLine
  enterScopeWith .handler (some .none)
  checkEventParams name params
  let body ← block [.end, .eof]
  leaveScope
  let endComment ← OptionT.lift blockEnd
  let body := body.withComment endComment
  if problem.isNone then
    modify fun s => { s with handlers := s.handlers.push ⟨name, params, body⟩ }
  return .on token comment name params body

theorem handlerEnd_binds (token : Token) (name : String) (problem : Option Problem) :
    Tries (fun s => problem = none ∧ (σ.prelude.event? name).isSome ∧ Reading σ [] s)
      (handlerEnd token name problem) (HandlerBound σ) := by
  have hparams (params : List Var) : Parses (fun s => (σ.prelude.event? name).isSome ∧
      Reading (σ.enterWith .handler (some .none)) [] s) (checkEventParams name params) fun _ s =>
      (σ.enterWith .handler (some .none)).Fresh params ∧
        Reading ((σ.enterWith .handler (some .none)).declareVars params) [] s :=
    checkEventParams_binds (σ := σ.enterWith .handler (some .none)) name params rfl
  refine (Tries.move State.alike_advance).bind fun _ => Tries.get.bind fun s =>
    (Tries.lift (eventParamsWithin_parses _ _)).bind fun params => Tries.peek.bind fun comment =>
    (Tries.move State.alike_nextLine).bind fun _ =>
    (Tries.lift (enterScopeWith_binds _ _).frame.frame).bind fun _ =>
    (Tries.lift (hparams params).frame).bind fun _ =>
    (Tries.lift (block_opens block_binds _ id).frame).bind fun body =>
    (Tries.lift closeBlock_binds.frame).bind fun _ => (Tries.lift blockEnd_parses).bind fun endComment => ?_
  dsimp only
  split
  · have hdeclare : State.IsUpdate fun s =>
        { s with handlers := s.handlers.push ⟨name, params, body.withComment endComment⟩ } :=
      ⟨fun _ => rfl, fun _ => rfl, fun _ => rfl, fun _ => rfl, fun _ => rfl⟩
    refine (Tries.lift (Parses.become hdeclare).frame.frame).bind fun _ => .pure fun s hs => ?_
    obtain ⟨-, ⟨-, hbody⟩, hs⟩ := hs
    refine ⟨token, comment, name, params, body.withComment endComment, rfl, hbody.withComment endComment, ?_⟩
    rw [Block.free_withComment]
    exact hs
  · next hproblem => exact .pure fun s hs => absurd (Option.isNone_iff_eq_none.2 hs.1) hproblem

theorem handler_binds : Tries (Reading σ []) handler (HandlerBound σ) := by
  unfold handler
  refine Tries.peek.bind fun token => (Tries.move State.alike_advance).bind fun _ =>
    (Tries.orNextLine (.require _)).bind fun _ => Tries.peek.bind fun nameToken =>
    Tries.bind (Q := fun t s => t.prelude = σ.prelude ∧ Reading σ [] s)
      (.lift (.state fun s hs => ⟨hs.prelude, hs⟩)) fun t => ?_
  dsimp only
  have hend := handlerEnd_binds (σ := σ) token nameToken.literal
  cases hproblem : t.handlerProblem? nameToken.literal with
  | none =>
    show Tries _ (pure PUnit.unit >>= _) _
    rw [pure_bind]
    exact (hend none).pre fun s hs => ⟨rfl, hs.1 ▸ isSome_event? hproblem, hs.2⟩
  | some p => exact (Tries.lift (Parses.reportHere _)).failThen fun _ => hend (some p)

/-! ### Programs -/

/-- The statements `done` have been read at the top of a program that starts at `σ`, with the functions
and handlers among them. -/
structure TopBound (σ : State) (done : List Stmt) (s : State) : Prop where
  named : σ.Named σ.funcPositions
  stmts : StmtsBound σ done
  reading : Reading { σ.afterAll done with declared := s.declared, handlers := s.handlers } [] s
  funcs : ∀ f ∈ s.declared, ∃ token comment, .func token comment f.signature f.body ∈ done
  handlers : ∀ h ∈ s.handlers, ∃ token comment, .on token comment h.name h.params h.body ∈ done
  names : ∀ f ∈ s.declared, ∃ q ∈ σ.funcPositions, q < s.pos ∧ f.signature.name = (σ.nameAt q).literal

theorem StmtBound.of_bodies {stmt : Stmt} {declared : Array Function} {handlers : Array Handler}
    (h : StmtBound { σ with declared, handlers } stmt) : StmtBound σ stmt :=
  ⟨fun hw => h.closed ⟨hw.taken, hw.vars⟩, h.fresh.distinct, h.fresh.untaken⟩

/-- The state in which the next statement at the top is read. -/
def topState (σ : State) (done : List Stmt) (s : State) : State :=
  { σ.afterAll done with declared := s.declared, handlers := s.handlers }

namespace TopBound
variable {done : List Stmt} {stmt : Stmt}

/-- A statement at the top, a function or a handler. -/
theorem concat (h : TopBound σ done t) (hstmt : StmtBound (topState σ done t) stmt)
    {declared : Array Function} {handlers : Array Handler}
    (hs : Reading { (topState σ done t).after stmt with declared, handlers } [] s) (hpos : t.pos < s.pos)
    (hfuncs : ∀ f ∈ declared, f ∈ t.declared ∨
      (∃ token comment, stmt = .func token comment f.signature f.body) ∧
        t.pos ∈ σ.funcPositions ∧ f.signature.name = (σ.nameAt t.pos).literal)
    (hhandlers : ∀ f ∈ handlers, f ∈ t.handlers ∨
      ∃ token comment, stmt = .on token comment f.name f.params f.body) :
    TopBound σ (done ++ [stmt]) s := by
  have hdeclared : s.declared = declared := hs.declared
  have hhandlers' : s.handlers = handlers := hs.handlers
  refine ⟨h.named, h.stmts.concat hstmt.of_bodies, ?_, ?_, ?_, ?_⟩
  · rw [State.afterAll_concat, hdeclared, hhandlers']
    exact hs
  · rw [hdeclared]
    intro f hf
    rcases hfuncs f hf with hf | ⟨⟨token, comment, rfl⟩, -⟩
    · obtain ⟨token, comment, hmem⟩ := h.funcs f hf
      exact ⟨token, comment, List.mem_append_left _ hmem⟩
    · exact ⟨token, comment, by simp⟩
  · rw [hhandlers']
    intro f hf
    rcases hhandlers f hf with hf | ⟨token, comment, rfl⟩
    · obtain ⟨token, comment, hmem⟩ := h.handlers f hf
      exact ⟨token, comment, List.mem_append_left _ hmem⟩
    · exact ⟨token, comment, by simp⟩
  · rw [hdeclared]
    intro f hf
    rcases hfuncs f hf with hf | ⟨-, hmem, hname⟩
    · obtain ⟨q, hq, hlt, hname⟩ := h.names f hf
      exact ⟨q, hq, by omega, hname⟩
    · exact ⟨t.pos, hmem, hpos, hname⟩

/-- A blank line. -/
theorem skip (h : TopBound σ done t) (hs : Reading (topState σ done t) [] s) (hpos : t.pos < s.pos) :
    TopBound σ done s := by
  have hdeclared : s.declared = t.declared := hs.declared
  have hhandlers : s.handlers = t.handlers := hs.handlers
  refine ⟨h.named, h.stmts, ?_, ?_, ?_, ?_⟩
  · rw [hdeclared, hhandlers]
    exact hs
  · rw [hdeclared]
    exact h.funcs
  · rw [hhandlers]
    exact h.handlers
  · rw [hdeclared]
    intro f hf
    obtain ⟨q, hq, hlt, hname⟩ := h.names f hf
    exact ⟨q, hq, by omega, hname⟩

theorem nameAt_topState (σ : State) (done : List Stmt) (t : State) (q : Nat) :
    (topState σ done t).nameAt q = σ.nameAt q := by
  rw [topState, State.afterAll_eq]
  exact State.cur_advance_congr rfl rfl rfl rfl

theorem tokens (h : TopBound σ done t) : t.tokens = σ.tokens := by
  rw [h.reading.tokens, State.afterAll_eq]

theorem mem_funcPositions (h : TopBound σ done t) (hk : t.cur.kind = .func) : t.pos ∈ σ.funcPositions := by
  have hlt := h.reading.inRange.lt_size (by rw [hk]; nofun)
  have heof : t.eof = σ.eof := by rw [h.reading.eof, State.afterAll_eq]
  have hcur : σ.tokenAt t.pos = t.cur := by rw [State.cur, State.tokenAt, State.tokenAt, h.tokens, heof]
  rw [State.funcPositions, List.mem_filter, List.mem_range, ← h.tokens, hcur, hk]
  exact ⟨hlt, rfl⟩

/-- The function that is read next can be declared. -/
theorem canName (h : TopBound σ done t) (hk : t.cur.kind = .func) :
    CanName (topState σ done t) t.pos := by
  have hmem := h.mem_funcPositions hk
  have hfunc (name : String) : (topState σ done t).isFunc name = σ.isFunc name := by
    rw [topState, State.afterAll_eq]
    rfl
  refine ⟨?_, ?_, fun f hf => ?_⟩
  · rw [nameAt_topState]
    exact h.named.ident _ hmem
  · rw [nameAt_topState, hfunc]
    exact h.named.known _ hmem
  · obtain ⟨q, hq, hlt, hname⟩ := h.names f hf
    rw [nameAt_topState, hname]
    have hsymm : Std.Symm fun q r => (σ.nameAt q).literal ≠ (σ.nameAt r).literal := ⟨fun _ _ => Ne.symm⟩
    exact h.named.distinct.forall hq hmem (Nat.ne_of_lt hlt)

end TopBound

/-- What is known before stays known, and reading has gone on. -/
theorem Parses.strides {α : Type} {m : Parse α} {Q : α → State → Prop} (hm : Parses (fun s => φ ∧ s = t) m Q)
    (hpos : φ → Strides m t) : Parses (fun s => φ ∧ s = t) m fun a s => φ ∧ Q a s ∧ t.pos < s.pos := by
  intro s hs hclean
  obtain ⟨hclean', hQ⟩ := hm s hs hclean
  obtain ⟨hφ, rfl⟩ := hs hclean'
  exact ⟨hclean', hφ, hQ, (hpos hφ).2⟩

section
variable {done : List Stmt}

theorem function_top : Parses (fun s => (TopBound σ done t ∧ t.cur.kind = .func) ∧ s = t)
    function.run fun stmt? s => ∃ stmt, stmt? = some stmt ∧ TopBound σ (done ++ [stmt]) s := by
  have hread := Parses.pre (function_binds (σ := topState σ done t) (q := t.pos))
    (I := fun s => (TopBound σ done t ∧ t.cur.kind = .func) ∧ s = t)
    fun s ⟨⟨h, hk⟩, heq⟩ => by subst heq; exact ⟨h.canName hk, h.reading, rfl⟩
  refine (hread.strides fun ⟨h, hk⟩ => h.reading.inRange.makesProgress.function (by rw [hk]; nofun)).post
    fun stmt? s hs => ?_
  obtain ⟨⟨h, hk⟩, ⟨stmt, rfl, token, comment, sig, body, rfl, hname, hbody, hs⟩, hpos⟩ := hs
  refine ⟨_, rfl, h.concat ⟨fun hw => hbody hw, .nil _⟩ hs hpos (fun f hf => ?_) fun _ => .inl⟩
  rcases Array.mem_push.1 hf with hf | rfl
  · exact .inl hf
  · have hat := congrArg Token.literal (TopBound.nameAt_topState σ done t t.pos)
    exact .inr ⟨⟨token, comment, rfl⟩, h.mem_funcPositions hk, hname.trans hat⟩

theorem handler_top : Parses (fun s => (TopBound σ done t ∧ t.cur.kind = .on) ∧ s = t)
    handler.run fun stmt? s => ∃ stmt, stmt? = some stmt ∧ TopBound σ (done ++ [stmt]) s := by
  have hread := Parses.pre (handler_binds (σ := topState σ done t))
    (I := fun s => (TopBound σ done t ∧ t.cur.kind = .on) ∧ s = t)
    fun s ⟨⟨h, hk⟩, heq⟩ => heq ▸ h.reading
  refine (hread.strides fun ⟨h, hk⟩ => h.reading.inRange.makesProgress.handler (by rw [hk]; nofun)).post
    fun stmt? s hs => ?_
  obtain ⟨⟨h, hk⟩, ⟨stmt, rfl, token, comment, name, params, body, rfl, hbody, hs⟩, hpos⟩ := hs
  refine ⟨_, rfl, h.concat ⟨fun hw => hbody hw, .nil _⟩ hs hpos (fun _ => .inl) fun f hf => ?_⟩
  rcases Array.mem_push.1 hf with hf | rfl
  · exact .inl hf
  · exact .inr ⟨token, comment, rfl⟩

theorem statement_top : Parses (fun s => (TopBound σ done t ∧ t.cur.kind ≠ .eof) ∧ s = t)
    (statement block).run fun stmt? s => TopBound σ (done ++ stmt?.toList) s := by
  have hread := Parses.pre (statement_binds (σ := topState σ done t) block_binds)
    (I := fun s => (TopBound σ done t ∧ t.cur.kind ≠ .eof) ∧ s = t)
    fun s ⟨⟨h, hk⟩, heq⟩ => heq ▸ h.reading
  refine (hread.strides fun ⟨h, hk⟩ => h.reading.inRange.makesProgress.statement hk).post fun stmt? s hs => ?_
  obtain ⟨⟨h, hk⟩, hs, hpos⟩ := hs
  cases stmt? with
  | none =>
    rw [Option.toList_none, List.append_nil]
    exact h.skip hs hpos
  | some stmt => exact h.concat hs.bound hs.reading hpos (fun _ => .inl) fun _ => .inl

end

theorem programWithin_binds (fuel : Nat) (done : Array Stmt) (terminated : Bool) :
    Parses (TopBound σ done.toList) (programWithin fuel done terminated) (TopBound σ) := by
  -- on the fuel, with what has been read so far as the invariant; every round starts from a state `t` of
  -- its own, because a function is found by the place where it starts
  induction fuel generalizing done terminated with
  | zero => exact .pure fun _ => id
  | succ fuel ih =>
    refine .fromState fun t => (Parses.look (f := State.cur)).bind fun token => ?_
    have hdone (m : Parse (Option Stmt))
        (hm : Parses (fun s => ((TopBound σ done.toList t ∧ s = t) ∧ s.cur = token)) m fun stmt? s => ∃ stmt, stmt? = some stmt ∧ TopBound σ (done.toList ++ [stmt]) s) :
        Parses (fun s => ((TopBound σ done.toList t ∧ s = t) ∧ s.cur = token))
          (do let stmt ← m; programWithin fuel (done ++ stmt.toArray) terminated) (TopBound σ) :=
      hm.bind fun stmt? => (ih _ terminated).pre fun s ⟨stmt, heq, hs⟩ => by simpa [heq] using hs
    split
    · exact .pure fun s ⟨⟨hs, heq⟩, _⟩ => heq ▸ hs
    · next hk => exact hdone _ (function_top.pre fun s ⟨⟨hs, heq⟩, hcur⟩ => ⟨⟨hs, heq ▸ hcur ▸ hk⟩, heq⟩)
    · next hk => exact hdone _ (handler_top.pre fun s ⟨⟨hs, heq⟩, hcur⟩ => ⟨⟨hs, heq ▸ hcur ▸ hk⟩, heq⟩)
    · next hk _ _ =>
      refine Parses.bind (statement_top.pre fun s ⟨⟨hs, heq⟩, hcur⟩ => ⟨⟨hs, heq ▸ hcur ▸ hk⟩, heq⟩)
        fun stmt? => ?_
      cases stmt? with
      | none => exact (ih done terminated).pre fun s hs => by simpa using hs
      | some stmt =>
        dsimp only
        split
        · exact .reportThen (.reportAt _ _) (ih done terminated)
        · exact (ih (done.push stmt) _).pre fun s hs => by simpa using hs

/-- Declares the globals of the host. -/
def globalScopes (globals : List Var) (ss : Scopes) : Scopes :=
  globals.foldl (fun ss v => ss.declare v true) ss

/-- A program starts in a scope with the globals of the host. -/
theorem exists_globalScopes (globals : List Var) (sc : Scope) : ∃ sc', globalScopes globals [sc] = [sc'] ∧
    ∀ name, name ≠ "_" → sc'.ty? name = (sc.ty? name).or ((globals.find? (·.name == name)).map (·.ty)) := by
  induction globals generalizing sc with
  | nil => exact ⟨sc, rfl, fun name _ => by simp⟩
  | cons v globals ih =>
    by_cases hv : v.name = "_"
    · obtain ⟨sc', hsc', hty⟩ := ih sc
      refine ⟨sc', ?_, fun name hname => ?_⟩
      · rw [globalScopes, List.foldl_cons, Scopes.declare_anonymous _ _ hv]
        exact hsc'
      · rw [hty name hname, List.find?_cons_of_neg (by simp [hv, Ne.symm hname])]
    · obtain ⟨sc', hsc', hty⟩ := ih { sc with vars := sc.vars.push ⟨v, true⟩ }
      refine ⟨sc', ?_, fun name hname => ?_⟩
      · rw [globalScopes, List.foldl_cons, Scopes.declare_cons _ _ _ hv]
        exact hsc'
      · rw [hty name hname, Scope.ty?, Array.find?_push, Scope.ty?]
        by_cases h : v.name = name <;> cases sc.vars.find? (·.var.name == name) <;> simp [h]

/-- Where the signatures of a program have been read and the globals of the host are declared. -/
structure Starts (prelude : Prelude) (s : State) : Prop where
  inRange : s.InRange
  prelude_eq : s.prelude = prelude
  named : s.Named s.funcPositions
  kept : ∀ name, (prelude.func? name).isSome → s.isFunc name
  declared : s.declared = #[]
  handlers : s.handlers = #[]
  scopes : ∃ sc : Scope, s.scopes = [sc] ∧
    ∀ name, name ≠ "_" → sc.ty? name = (prelude.globals.find? (·.name == name)).map (·.ty)

namespace Starts
variable {prelude : Prelude} {stmts : List Stmt}

theorem topBound (h : Starts prelude σ) : TopBound σ [] σ := by
  refine ⟨h.named, trivial, .refl h.inRange, ?_, ?_, ?_⟩
  · simp [h.declared]
  · simp [h.handlers]
  · simp [h.declared]

/-- The statements of a program that has been read, with its functions and handlers. -/
theorem closed (h : Starts prelude σ) (htop : TopBound σ stmts s) (hused : s.scopes.unused = []) :
    Program.Closed prelude ⟨stmts, s.declared.toList, s.handlers.toList⟩ := by
  obtain ⟨sc, hscopes, hty⟩ := h.scopes
  have hend : s.scopes = (σ.afterAll stmts).scopes := htop.reading.scopes
  have hwithin : σ.Within (Program.Taken prelude ⟨stmts, s.declared.toList, s.handlers.toList⟩)
      prelude.globals := by
    refine ⟨fun name hname => ?_, fun name τ hname hτ => ?_⟩
    · rcases hname with hglobal | hfunc | ⟨f, hf, rfl⟩
      · exact .inl (h.prelude_eq ▸ hglobal)
      · exact .inr (h.kept name hfunc)
      · obtain ⟨q, hq, -, hname⟩ := htop.names f (Array.mem_def.2 hf)
        exact .inr (hname ▸ h.named.known q hq)
    · have hsc : sc.ty? name = some τ := by
        rw [hscopes] at hτ
        simpa [Scopes.ty?] using hτ
      rw [hty name hname] at hsc
      exact Option.map_eq_some_iff.1 hsc
  refine ⟨(htop.stmts.fresh hscopes).declarable hwithin,
    (htop.stmts.closed hscopes hwithin (hend ▸ hused)).1, ?_, ?_⟩
  · exact fun f hf => htop.funcs f (Array.mem_def.2 hf)
  · exact fun f hf => htop.handlers f (Array.mem_def.2 hf)

end Starts

/-- The state before the statements of a program. -/
def programState (s : State) : State :=
  { s with scopes := globalScopes s.prelude.globals (s.scopes.enterWith .program none), pos := 0 }

theorem starts_programState {source : String} {prelude : Prelude}
    (h : SignedFrom (State.start source prelude) (State.start source prelude).funcPositions s) :
    Starts prelude (programState s) := by
  have hprelude : s.prelude = prelude := (congrArg State.prelude h.site :)
  have hscopes : s.scopes = [] := (congrArg State.scopes h.site :)
  obtain ⟨sc, hsc, hty⟩ := exists_globalScopes prelude.globals ⟨.program, #[], none⟩
  have hat (q : Nat) : (programState s).nameAt q = s.nameAt q := State.cur_advance_congr rfl rfl rfl rfl
  have hpositions : (programState s).funcPositions = (State.start source prelude).funcPositions := by
    have htokens : s.tokens = (State.start source prelude).tokens := (congrArg State.tokens h.site :)
    have heof : s.eof = (State.start source prelude).eof := (congrArg State.eof h.site :)
    simp only [State.funcPositions, State.tokenAt, programState, htokens, heof]
  refine ⟨⟨Nat.zero_le _, h.inRange.eof⟩, hprelude, ?_, fun name hname => h.kept name hname,
    (congrArg State.declared h.site :), (congrArg State.handlers h.site :), sc, ?_, fun name hname => ?_⟩
  · rw [hpositions]
    refine ⟨fun q hq => ?_, fun q hq => ?_, ?_⟩
    · rw [hat]
      exact h.named.ident q hq
    · rw [hat]
      exact h.named.known q hq
    · simp only [hat]
      exact h.named.distinct
  · rw [programState, hprelude, hscopes]
    exact hsc
  · simpa [Scope.ty?] using hty name hname

/-- A program has been read in the scope of the host's globals, and all of its variables are read. -/
theorem program_binds (source : String) (prelude : Prelude) :
    Parses (· = State.start source prelude) program fun p _ => p.Closed prelude := by
  have hrest (σ : State) : Parses (fun s => Starts prelude σ ∧ s = σ) (do
      let stmts ← programWithin (← get).fuel #[] false
      leaveScope
      let s ← get
      return (⟨stmts, s.declared.toList, s.handlers.toList⟩ : Program)) fun p _ => p.Closed prelude := by
    refine Parses.bind (Q := fun _ s => Starts prelude σ ∧ TopBound σ [] s)
      (.state fun s ⟨h, heq⟩ => ⟨h, heq ▸ h.topBound⟩) fun t =>
      (programWithin_binds t.fuel #[] false).frame.bind fun stmts => (leaveScope_used _).bind fun _ =>
      Parses.bind (Q := fun t _ => ∃ s₀, (Starts prelude σ ∧ TopBound σ stmts s₀) ∧
        s₀.scopes.unused = [] ∧ t = s₀.leave) (.state fun _ => id) fun t => .pure fun s hs => ?_
    obtain ⟨s₀, ⟨hstarts, htop⟩, hused, rfl⟩ := hs
    have hclosed := hstarts.closed htop hused
    exact hclosed
  have hposition (t : State) : ∀ q ∈ t.funcPositions, q < t.tokens.size :=
    fun q hq => List.mem_range.1 (List.mem_filter.1 hq).1
  refine Parses.bind (Q := fun t s => t = State.start source prelude ∧ SignedFrom t [] s)
    (.state fun s hs => ?_) fun t =>
    (signatures_sign t.funcPositions (hposition t)).frame.bind fun _ =>
    Parses.bind (Q := fun _ s => ∃ u, (t = State.start source prelude ∧ SignedFrom t t.funcPositions u) ∧
      s = u.enterWith .program none) (.step (fun _ => rfl) fun s hs => ⟨s, hs, rfl⟩) fun _ =>
    Parses.bind (Q := fun _ => Starts prelude) (.step (fun _ => rfl) fun s hs => ?_) fun _ => .fromState hrest
  · exact ⟨hs, hs ▸ start_inRange source prelude, rfl, ⟨nofun, nofun, .nil⟩, fun _ => id⟩
  · obtain ⟨u, ⟨rfl, hu⟩, rfl⟩ := hs
    exact starts_programState hu

end TinyScript.Parsing

namespace TinyScript
open Parsing

/-- A program that is read without problems is lexically closed. -/
theorem Program.closed_of_parse {source : String} {prelude : Prelude} {p : Program}
    (h : Program.parse source prelude = .ok p) : p.Closed prelude := by
  obtain ⟨hclean, rfl⟩ := clean_of_parse h
  exact (program_binds source prelude _ (fun _ => rfl) hclean).2

/-- A program in which a parameter and a variable of a loop's body have the name of one around them. -/
def shadowingSource : String :=
  "n := 2\nfunc f:num n:num\n return n\nend\nfor i := range (f n)\n n := [i]\n print n\nend\n"

theorem shadowingSource_closed :
    ∃ p, Program.parse shadowingSource .standard = .ok p ∧ p.Closed .standard := by
  have hparse : (Program.parse shadowingSource .standard).toOption.isSome := by decide +kernel
  cases hp : Program.parse shadowingSource .standard with
  | error problems => rw [hp] at hparse; cases hparse
  | ok p => exact ⟨p, rfl, Program.closed_of_parse hp⟩

end TinyScript
