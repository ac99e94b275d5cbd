import TinyScript.Proofs.Binding.Programs
import TinyScript.Proofs.Layout.Gaps
import TinyScript.Proofs.Layout.ReadStatements
import TinyScript.Proofs.Parsing.Programs

/-!
# Programs that are read are neat

The parameters of a function or a handler are only read at names if there are no problems in the end, so
that their names can be seen then (`Program.neat_of_parse`).
-/

namespace TinyScript
namespace Parsing
open Layout

/-! ### Parsers that end without problems -/

/-- What is known of a state by its input and by the tokens that problems are reported at. -/
class Steady (P : State → Prop) : Prop where
  pointed {s : State} : P s → s.Pointed Token.Legible
  of_sameInput {s t : State} : P s → s.SameInput t → t.Pointed Token.Legible → P t

section
variable {α : Type} {P : State → Prop} {R : State → Prop} {Q : α → Prop} {φ : Prop}

instance [Steady P] : Stable P where
  of_alike h hs := Steady.of_sameInput hs h.sameInput ((Steady.pointed hs).of_alike h)

/-- Problems are never taken back. -/
theorem Parses.clean {m : Parse α} {Q : α → State → Prop} (hm : Parses P m Q) (s : State)
    (h : (m.run s).2.Clean) : s.Clean :=
  Classical.byContradiction fun hs => hs (hm s (fun hclean => absurd hclean hs) h).1

theorem Parses.of_pointsFrom [Steady P] {m : Parse α} (hclean : ∀ s : State, (m.run s).2.Clean → s.Clean)
    (hm : ∀ s, R s → P s → PointsFrom Token.Legible s m Q) :
    Parses (fun s => R s ∧ P s) m fun a s => Q a ∧ P s := by
  intro s hs h
  have hs' := hclean s h
  obtain ⟨hR, hP⟩ := hs hs'
  obtain ⟨hinput, hpointed, hQ⟩ := hm s hR hP
  exact ⟨hs', hQ, Steady.of_sameInput hP hinput hpointed⟩

/-- What is known stays known, with what the parser tells of its result. -/
theorem Parses.learn [Steady P] {m : Parse α} (hclean : ∀ s : State, (m.run s).2.Clean → s.Clean)
    (hm : φ → Points Token.Legible m Q) : Parses (fun s => φ ∧ P s) m fun a s => (φ ∧ Q a) ∧ P s :=
  .of_pointsFrom hclean fun s hφ hs => (hm hφ s (Steady.pointed hs)).weaken fun _ hQ => ⟨hφ, hQ⟩

theorem Parses.keep [Steady P] {m : Parse α} (hclean : ∀ s : State, (m.run s).2.Clean → s.Clean)
    (hm : φ → Points Token.Legible m fun _ => True) : Parses (fun s => φ ∧ P s) m fun _ s => φ ∧ P s :=
  (Parses.learn hclean hm).post fun _ _ hs => ⟨hs.1.1, hs.2⟩

/-! ### Parameters -/

/-- All variables that have been read are at names. -/
abbrev AllLegible (vs : List Var) : Prop :=
  ∀ v ∈ vs, v.Legible

theorem AllLegible.push {done : Array Var} {v : Var} (hdone : AllLegible done.toList) (hv : v.Legible) :
    AllLegible (done.push v).toList := by
  rw [Array.toList_push]
  exact List.forall_mem_append.2 ⟨hdone, List.forall_mem_singleton.2 hv⟩

/-- Parameters that are read from the first one on. -/
theorem Parses.fromNone {m : Parse (List Var)}
    (hm : Parses (fun s => AllLegible [] ∧ P s) m fun vs s => AllLegible vs ∧ P s) :
    Parses (fun s => φ ∧ P s) m fun vs s => (φ ∧ AllLegible vs) ∧ P s :=
  (hm.pre fun _ hs => ⟨List.forall_mem_nil _, hs⟩).frame.post fun _ _ => and_assoc.2

variable [Steady P]

/-- A parameter is read at a name. -/
theorem param_parses (done : Array Var) :
    Parses (fun s => AllLegible done.toList ∧ P s) (do let _ ← expect .ident; typedVar) fun r s =>
      AllLegible (done.push r.1).toList ∧ P s := by
  have hparam : Parses P (do let _ ← expect .ident; typedVar) fun r s => r.1.Legible ∧ P s :=
    (expect_kind .ident).bind fun _ => (Parses.of_pointsFrom (typedVar_parses (P := fun _ => False)).clean
      fun _ hk hs => typedVar_legible (Steady.pointed hs) hk).pre fun _ hs => ⟨hs.2.2, hs.2.1⟩
  exact hparam.frame.post fun _ _ hs => ⟨hs.1.push hs.2.1, hs.2.2⟩

theorem paramsWithin_legible (fuel : Nat) (done : Array Var) :
    Parses (fun s => AllLegible done.toList ∧ P s) (paramsWithin fuel done) fun vs s => AllLegible vs ∧ P s := by
  induction fuel generalizing done with
  | zero => exact .pure fun _ => id
  | succ fuel ih =>
    refine Parses.peek.bind fun ended => Parses.peek.bind fun k => ?_
    dsimp only
    split
    · exact .pure fun _ => id
    · rw [← bind_assoc]
      exact (param_parses done).bind fun r => ih (done.push r.1)

theorem eventParamsWithin_legible (fuel : Nat) (done : Array Var) :
    Parses (fun s => AllLegible done.toList ∧ P s) (eventParamsWithin fuel done) fun vs s =>
      AllLegible vs ∧ P s := by
  induction fuel generalizing done with
  | zero => exact .pure fun _ => id
  | succ fuel ih =>
    refine Parses.peek.bind fun ended => ?_
    split
    · exact .pure fun _ => id
    · rw [← bind_assoc]
      exact (param_parses done).bind fun r => ih (done.push r.1)

/-- A name is read where one is required. -/
theorem look_name : Parses (fun s => P s ∧ s.cur.kind = .ident) cur fun t s => Visible t.literal ∧ P s :=
  Parses.look.post fun _ _ ⟨⟨hs, hk⟩, heq⟩ => heq ▸ ⟨(Steady.pointed hs).cur.name hk, hs⟩

/-! ### Signatures -/

theorem signatureEnd_neat (token : Token) (name : String) (result : Ty) :
    Tries (fun s => Visible name ∧ P s) (signatureEnd token name result) fun r s => r.2.Neat ∧ P s := by
  have hend (params : List Var) (variadic : Option Var) : Tries (fun s => (Visible name ∧
      AllLegible (params ++ variadic.toList)) ∧ P s) (do
      expectLineEnd
      nextLine
      return (token, (⟨name, params, variadic, result⟩ : Signature))) fun r s => r.2.Neat ∧ P s := by
    refine (Tries.lift Parses.expectLineEnd).bind fun _ => (Tries.move State.alike_nextLine).bind fun _ =>
      .pure fun s ⟨⟨hname, hvars⟩, hs⟩ => ⟨⟨hname, fun v hv => ?_, fun v hv => ?_⟩, hs⟩
    · exact (hvars v (List.mem_append_left _ hv)).name
    · exact (hvars v (List.mem_append_right _ (Option.mem_toList.2 hv))).name
  refine Tries.get.bind fun s => (Tries.lift (paramsWithin_legible s.fuel #[]).fromNone).bind fun params =>
    Tries.peek.bind fun k => ?_
  have hfixed := (hend params none).pre (I := fun s => (Visible name ∧ AllLegible params) ∧ P s)
    fun s hs => by simpa using hs
  dsimp only
  split
  · refine (Tries.move State.alike_advance).bind fun _ => ?_
    split
    · exact (hend [] _).pre fun s hs => by simpa using hs
    · exact (Tries.lift (Parses.reportHere _)).bind fun _ => hfixed
  · exact hfixed

theorem signature_neat : Tries P signature fun r s => r.2.Neat ∧ P s := by
  have hrest (token nameToken : Token) : Tries (fun s => Visible nameToken.literal ∧ P s)
      (signatureRest token nameToken) fun r s => r.2.Neat ∧ P s := by
    have hend (result : Ty) := signatureEnd_neat (P := P) token nameToken.literal result
    refine (Tries.move State.alike_advance).bind fun _ => Tries.peek.bind fun k => ?_
    dsimp only
    split
    · refine (Tries.move State.alike_advance).bind fun _ => (Tries.lift type_parses).bind fun result => ?_
      split
      · exact Tries.peek.bind fun _ => (Tries.lift (Parses.reportAt _ _)).bind fun _ => hend _
      · exact hend _
    · exact hend _
  exact Tries.peek.bind fun token => (Tries.move State.alike_advance).bind fun _ =>
    (Tries.orNextLine (require_kind _)).bind fun _ => (Tries.lift look_name).bind fun nameToken =>
    hrest token nameToken

end

theorem reportTaken_parses {P : State → Prop} (token : Token) (sig : Signature) :
    Parses P (reportTaken token sig) fun _ => P := by
  refine Parses.get.bind fun s => ?_
  have hnamed : Parses P (if (s.prelude.func? sig.name).isSome then
      reportAt token (.overridesFunction sig.name)
    else if s.isFunc sig.name then
      reportAt token (.functionRedeclared sig.name)
    else pure ⟨⟩) fun _ => P := by
    split
    · exact .reportAt _ _
    split
    · exact .reportAt _ _
    · exact .pure fun _ => id
  dsimp only
  split
  · exact .reportThen (.reportAt _ _) hnamed
  · exact hnamed

namespace State

/-- The source is legible, and the functions that are known besides those in `base` are neat. -/
structure Signs (base : List Signature) (s : State) : Prop where
  pointed : s.Pointed Token.Legible
  funcs : ∃ read, s.funcs = read ++ base ∧ ∀ sig ∈ read, sig.Neat

instance (base : List Signature) : Steady (Signs base) where
  pointed := Signs.pointed
  of_sameInput hs h ht := ⟨ht, by rw [h.funcs]; exact hs.funcs⟩

end State

/-- Every signature that is read is neat. -/
theorem signatureAt_neat (base : List Signature) (q : Nat) :
    Parses (State.Signs base) (signatureAt q) fun _ => State.Signs base := by
  have hplace : Parses (State.Signs base) (modify fun s => { s with pos := q }) fun _ => State.Signs base :=
    .step (fun _ => rfl) fun s hs =>
      ⟨⟨hs.pointed.tokens, hs.pointed.eof, hs.pointed.problems, hs.pointed.scopes⟩, hs.funcs⟩
  refine hplace.bind fun _ => Parses.bind signature_neat fun r => ?_
  cases r with
  | none => exact .pure fun s hs => by obtain ⟨r, hr, -⟩ := hs; cases hr
  | some r =>
    obtain ⟨token, sig⟩ := r
    show Parses _ (addSignature token sig) _
    rw [addSignature_eq]
    refine (reportTaken_parses token sig).bind fun _ => .step (fun _ => rfl) fun s hs => ?_
    obtain ⟨_, ⟨⟩, hsig, hs⟩ := hs
    obtain ⟨read, hread, hneat⟩ := hs.funcs
    refine ⟨⟨hs.pointed.tokens, hs.pointed.eof, hs.pointed.problems, hs.pointed.scopes⟩, sig :: read, ?_, ?_⟩
    · exact congrArg (sig :: ·) hread
    · exact List.forall_mem_cons.2 ⟨hsig, hneat⟩

/-! ### Functions and handlers -/

namespace State

/-- The source is legible, and the functions that are known by what follows a `func` are neat. -/
structure Readable (s : State) : Prop where
  pointed : s.Pointed Token.Legible
  known : s.Known Token.Legible
  neat : ∀ q ∈ s.funcPositions, ∀ sig, s.func? (s.nameAt q).literal = some sig → sig.Neat

instance : Steady Readable where
  pointed := Readable.pointed
  of_sameInput hs h ht := by
    refine ⟨ht, hs.known.of_sameInput h, fun q hq sig hsig => ?_⟩
    rw [h.funcPositions] at hq
    rw [h.nameAt, State.func?, h.funcs] at hsig
    exact hs.neat q hq sig hsig

end State

theorem functionEnd_neat (token nameToken : Token) {comment : Option String} (hcomment : Noted comment)
    {signature : Option Signature} (hsignature : ∀ sig, signature = some sig → sig.Neat) {body : Block}
    (hbody : body.Neat) :
    Aims Token.Legible (functionEnd token nameToken comment signature body) Stmt.Neat := by
  refine (Aims.lift blockEnd_noted).bind fun endComment hend => ?_
  cases signature with
  | none => exact .failure
  | some sig =>
    refine .ifFail .failure (.after .get fun s => .ifFail .failure ?_)
    refine .after (.update (fun _ => ⟨rfl, rfl, rfl, rfl⟩) fun _ hs => ?_) fun _ => .pure ?_
    · exact ⟨hs.tokens, hs.eof, hs.problems, hs.scopes⟩
    · exact .func hcomment (hsignature sig rfl) (hbody.withComment hend)

theorem functionRest_neat (token nameToken : Token) {comment : Option String} (hcomment : Noted comment)
    {signature : Option Signature}
    (hsignature : ∀ sig, signature = some sig → sig.Pointed Token.Legible ∧ sig.Neat) :
    Aims Token.Legible (functionRest token nameToken comment signature) Stmt.Neat := by
  unfold functionRest
  rw [forM_lift]
  refine .after .nextLine fun _ => .after (enterScopeWith_points _ _) fun _ => ?_
  refine .after (.optionForM fun sig hsig => declareParams_points (hsignature sig hsig).1) fun _ => ?_
  refine (Aims.lift (block_neat _)).bind fun body hbody => .after leaveScope_points fun _ => ?_
  have hend := functionEnd_neat token nameToken hcomment (fun sig hsig => (hsignature sig hsig).2) hbody
  exact .ite (.after (.report _) fun _ => hend) hend

theorem function_neat {s : State} (h : s.Readable) (hk : s.cur.kind = .func) :
    PointsFrom Token.Legible s function.run fun r => ∀ stmt, r = some stmt → stmt.Neat := by
  have hmove : s.Alike s.advance.toLineEnd := s.alike_advance.trans s.advance.alike_toLineEnd
  have hname : s.advance.cur = s.nameAt s.pos := rfl
  have hmem := State.mem_funcPositions h.known.eof hk
  have hsig (sig : Signature) (hsig : s.advance.toLineEnd.func? s.advance.cur.literal = some sig) :
      sig.Pointed Token.Legible ∧ sig.Neat := by
    rw [hname, State.func?, hmove.sameInput.funcs] at hsig
    exact ⟨h.known.params _ hmem sig hsig, h.neat _ hmem sig hsig⟩
  have hend := h.pointed.of_alike hmove
  refine .peek (.step s.alike_advance (.peek (.step s.advance.alike_toLineEnd (.peek (g := id) ?_))))
  refine functionRest_neat _ _ (fun text htext => ?_) hsig _ hend
  dsimp only [id] at htext
  split at htext
  · next t hprev =>
    split at htext
    · next hk =>
      cases htext
      exact (hend.prev? hprev).comment hk
    · cases htext
  · cases htext

section
variable {P : State → Prop} [Steady P]

theorem handlerEnd_neat (token : Token) (name : String) (problem : Option Problem) :
    Tries (fun s => Visible name ∧ P s) (handlerEnd token name problem) fun stmt s => stmt.Neat ∧ P s := by
  have hopen : ∀ s : State, ((enterScopeWith .handler (some .none)).run s).2.Clean → s.Clean := fun _ => id
  have hcheck (params : List Var) (s : State) : ((checkEventParams name params).run s).2.Clean → s.Clean :=
    (checkEventParams_parses (φ := False) (o := s.outline) name params False.elim).clean s
  refine (Tries.move State.alike_advance).bind fun _ => Tries.get.bind fun s =>
    (Tries.lift (eventParamsWithin_legible s.fuel #[]).fromNone).bind fun params =>
    (Tries.lift (Parses.learn (fun _ => id) fun _ => comment?_noted)).bind fun comment =>
    (Tries.move State.alike_nextLine).bind fun _ =>
    (Tries.lift (Parses.keep hopen fun _ => enterScopeWith_points _ _)).bind fun _ =>
    (Tries.lift (Parses.keep (hcheck params) fun h =>
      checkEventParams_points _ fun v hv => (h.1.2 v hv).token)).bind fun _ =>
    (Tries.lift (Parses.learn (fun s => (block_binds s _).clean s) fun _ => block_neat _)).bind fun body =>
    (Tries.lift (Parses.keep (leaveScope_used fun _ => False).clean fun _ => leaveScope_points)).bind fun _ =>
    (Tries.lift (Parses.learn (blockEnd_parses (P := fun _ => False)).clean fun _ => blockEnd_noted)).bind
      fun endComment => ?_
  have hstmt (h : (((Visible name ∧ AllLegible params) ∧ Noted comment) ∧ body.Neat) ∧ Noted endComment) :
      (Stmt.on token comment name params (body.withComment endComment)).Neat := by
    obtain ⟨⟨⟨⟨hname, hparams⟩, hcomment⟩, hbody⟩, hend⟩ := h
    exact .on hcomment hname (fun v hv => (hparams v hv).name) (hbody.withComment hend)
  have hdeclare (h : Handler) : Points Token.Legible (modify fun s => { s with handlers := s.handlers.push h })
      fun _ => True :=
    .update (fun _ => ⟨rfl, rfl, rfl, rfl⟩) fun _ hs => ⟨hs.tokens, hs.eof, hs.problems, hs.scopes⟩
  dsimp only
  split
  · exact (Tries.lift (Parses.keep (fun _ => id) fun _ => hdeclare _)).bind fun _ =>
      .pure fun s hs => ⟨hstmt hs.1, hs.2⟩
  · exact .pure fun s hs => ⟨hstmt hs.1, hs.2⟩

theorem handler_neat : Tries P handler fun stmt s => stmt.Neat ∧ P s := by
  unfold handler
  refine Tries.peek.bind fun token => (Tries.move State.alike_advance).bind fun _ =>
    (Tries.orNextLine (require_kind _)).bind fun _ => (Tries.lift look_name).bind fun nameToken =>
    Tries.get.bind fun t => ?_
  have hend := handlerEnd_neat (P := P) token nameToken.literal
  dsimp only
  cases t.handlerProblem? nameToken.literal with
  | none =>
    show Tries _ (pure PUnit.unit >>= _) _
    rw [pure_bind]
    exact hend none
  | some p => exact (Tries.lift (Parses.reportHere _)).failThen fun _ => hend (some p)

end

/-! ### Programs -/

theorem programWithin_neat (fuel : Nat) (done : Array Stmt) (terminated : Bool) :
    Parses (fun s => (∀ stmt ∈ done, stmt.Neat) ∧ s.Readable) (programWithin fuel done terminated)
      fun stmts _ => ∀ stmt ∈ stmts, stmt.Neat := by
  -- what has been read so far is neat only if there are no problems yet, because of the handlers in it
  induction fuel generalizing done terminated with
  | zero => exact .pure fun s hs stmt hstmt => hs.1 stmt (Array.mem_toList_iff.1 hstmt)
  | succ fuel ih =>
    have hpush {stmt : Stmt} (hdone : ∀ stmt ∈ done, stmt.Neat) (hstmt : stmt.Neat) :
        ∀ t ∈ done.push stmt, t.Neat :=
      fun t ht => (Array.mem_push.1 ht).elim (hdone t) fun heq => heq ▸ hstmt
    have hnext {m : Parse (Option Stmt)} {R : State → Prop}
        (hm : Parses (fun s => R s ∧ s.Readable) m fun r s => (∀ stmt, r = some stmt → stmt.Neat) ∧ s.Readable) :
        Parses (fun s => (∀ stmt ∈ done, stmt.Neat) ∧ R s ∧ s.Readable)
          (do let stmt ← m; programWithin fuel (done ++ stmt.toArray) terminated)
          fun stmts _ => ∀ stmt ∈ stmts, stmt.Neat := by
      refine hm.frame.bind fun stmt? => (ih _ _).pre fun s ⟨hdone, hstmt, hs⟩ => ⟨?_, hs⟩
      cases stmt? with
      | none => simpa using hdone
      | some stmt => simpa using hpush hdone (hstmt stmt rfl)
    have hfunction : Parses (fun s => s.cur.kind = .func ∧ s.Readable) function.run fun r s =>
        (∀ stmt, r = some stmt → stmt.Neat) ∧ s.Readable :=
      .of_pointsFrom (fun s => Parses.clean (function_binds (σ := s) (q := 0)) s) fun s hk hs => function_neat hs hk
    have hhandler : Parses (fun s => True ∧ s.Readable) handler.run fun r s =>
        (∀ stmt, r = some stmt → stmt.Neat) ∧ s.Readable := by
      refine Parses.conseq handler_neat (fun _ => And.right) fun r s ⟨stmt, hr, hneat, hs⟩ => ⟨?_, hs⟩
      subst hr
      exact fun _ heq => Option.some.inj heq ▸ hneat
    have hstatement : Parses (fun s => (∀ stmt ∈ done, stmt.Neat) ∧ s.Readable) (statement block).run fun r s =>
        ((∀ stmt ∈ done, stmt.Neat) ∧ ∀ stmt, r = some stmt → stmt.Neat) ∧ s.Readable :=
      .learn (fun s => Parses.clean (statement_binds (σ := s) block_binds) s) fun _ => statement_neat block_neat
    refine (Parses.look (f := State.cur)).bind fun token => ?_
    split
    · exact .pure fun s hs stmt hstmt => hs.1.1 stmt (Array.mem_toList_iff.1 hstmt)
    · next hk => exact (hnext hfunction).pre fun s hs => ⟨hs.1.1, hs.2 ▸ hk, hs.1.2⟩
    · exact (hnext hhandler).pre fun s hs => ⟨hs.1.1, trivial, hs.1.2⟩
    · refine (hstatement.pre fun s hs => hs.1).bind fun stmt? => ?_
      cases stmt? with
      | none => exact (ih done terminated).pre fun s hs => ⟨hs.1.1, hs.2⟩
      | some stmt =>
        dsimp only
        split
        · exact .reportThen (.reportAt _ _) (ih done terminated)
        · exact (ih (done.push stmt) _).pre fun s hs => ⟨hpush hs.1.1 (hs.1.2 stmt rfl), hs.2⟩

/-- Where all signatures have been read without problems, the functions that are known are neat. -/
theorem readable_of_signed {start s : State} (h : start.Signed Token.Legible start.funcPositions s)
    (hnamed : ∀ q ∈ start.funcPositions, (s.nameAt q).kind = .ident) (hsigns : s.Signs start.funcs)
    (heof : start.eof.kind = .eof) (hfuncs : start.funcs = start.prelude.funcs) : s.Readable := by
  refine ⟨h.pointed, ?_, fun q hq sig hsig => ?_⟩
  · refine h.known heof hfuncs fun token ⟨q, hq, hk, _⟩ => ?_
    rw [← h.nameAt] at hk
    exact absurd (hnamed q hq) hk
  · rw [h.input.funcPositions] at hq
    have hident := hnamed q hq
    obtain ⟨read, hread, -, hknown⟩ := h.funcs
    obtain ⟨read', hread', hneat⟩ := hsigns.funcs
    obtain rfl : read' = read := List.append_cancel_right (hread'.symm.trans hread)
    rw [h.nameAt] at hident hsig
    obtain ⟨found, hmem, hname⟩ := hknown q hq hident
    rw [State.func?, hread, List.find?_append, Option.or_eq_some_iff] at hsig
    rcases hsig with hsig | ⟨hnone, -⟩
    · exact hneat sig (List.mem_of_find?_eq_some hsig)
    · exact absurd (beq_iff_eq.2 hname) (List.find?_eq_none.1 hnone found hmem)

theorem signatures_readable (source : String) (prelude : Prelude) (t : State) :
    Parses (fun s => t = State.start source prelude ∧ s = State.start source prelude)
      (t.funcPositions.forM signatureAt) fun _ => State.Readable := by
  have hsigns := Parses.forM (signatureAt_neat t.funcs) t.funcPositions
  have hnamed : Parses (SignedFrom t []) (t.funcPositions.forM signatureAt) fun _ => SignedFrom t t.funcPositions :=
    signatures_sign _ fun q hq => List.mem_range.1 (List.mem_filter.1 hq).1
  intro s hs hclean
  have hs' := hnamed.clean s hclean
  obtain ⟨rfl, rfl⟩ := hs hs'
  have hstart := start_inRange source prelude
  have hpointed := start_pointed source prelude (Token.scan_legible source)
  have hfrom := (hnamed _ (fun _ => ⟨hstart, rfl, ⟨nofun, nofun, .nil⟩, fun _ => id⟩) hclean).2
  have hread := (hsigns _ (fun _ => ⟨hpointed, [], rfl, nofun⟩) hclean).2
  exact ⟨hs', readable_of_signed (signatures_point _ hpointed) hfrom.named.ident hread hstart.eof rfl⟩

theorem program_neat (source : String) (prelude : Prelude) :
    Parses (· = State.start source prelude) program fun p _ => ∀ stmt ∈ p.stmts, stmt.Neat := by
  have henter : Parses State.Readable (enterScopeWith .program none) fun _ => State.Readable :=
    .step (fun _ => rfl) fun s hs => Steady.of_sameInput hs ⟨rfl, rfl, rfl, rfl⟩
      ⟨hs.pointed.tokens, hs.pointed.eof, hs.pointed.problems, hs.pointed.scopes.enterWith _ _⟩
  have hglobals : Parses State.Readable (modify fun s =>
      { s with scopes := s.prelude.globals.foldl (fun ss v => ss.declare v true) s.scopes, pos := 0 })
      fun _ => State.Readable :=
    .step (fun _ => rfl) fun s hs => Steady.of_sameInput hs ⟨rfl, rfl, rfl, rfl⟩
      ⟨hs.pointed.tokens, hs.pointed.eof, hs.pointed.problems, globalScopes_pointed hs.pointed.scopes _⟩
  have hrest (stmts : List Stmt) : Parses (fun _ => ∀ stmt ∈ stmts, stmt.Neat) (do
      leaveScope
      let s ← get
      return (⟨stmts, s.declared.toList, s.handlers.toList⟩ : Program)) fun p _ => ∀ stmt ∈ p.stmts, stmt.Neat :=
    (leaveScope_used _).bind fun _ => Parses.get.bind fun _ => .pure fun _ ⟨_, hneat, _⟩ => hneat
  exact Parses.bind (Q := fun t s => t = State.start source prelude ∧ s = State.start source prelude)
    (.state fun s hs => ⟨hs, hs⟩) fun t => (signatures_readable source prelude t).bind fun _ =>
    henter.bind fun _ => hglobals.bind fun _ => Parses.get.bind fun s =>
    ((programWithin_neat s.fuel #[] false).pre fun s hs => ⟨by simp, hs⟩).bind hrest

end Parsing

open Parsing Layout Word

/-- The statements of a program that is read without problems are neat. -/
theorem Program.neat_of_parse {source : String} {prelude : Prelude} {p : Program}
    (h : Program.parse source prelude = .ok p) : ∀ s ∈ p.stmts, s.Neat := by
  obtain ⟨hclean, rfl⟩ := clean_of_parse h
  exact (program_neat source prelude _ (fun _ => rfl) hclean).2

/-! ### The layout -/

/-- The text of a program that is read has at most one blank line in a row, and does not start with two. A
function or a handler, with all comment lines right above it, has a blank line or the start of the text above
it; it ends with the line of its `end`, and a blank line or the end of the text comes below that. -/
theorem Program.format_canonical {source : String} {prelude : Prelude} {p : Program}
    (h : Program.parse source prelude = .ok p) :
    (¬ ['\n', '\n', '\n'] <:+: p.format.toList ∧ ¬ ['\n', '\n'] <+: p.format.toList) ∧
    ∀ init decl after, p.stmts = init ++ decl :: after → standsApart decl = true →
      ∃ before comments, init = before ++ comments ∧ (∀ c ∈ comments, isComment c = true) ∧
        (∀ s, before.getLast? = some s → isComment s = false) ∧
        StandApart p.format.toList (textBefore before (comments ++ decl :: after))
          (commentText comments ++ (join (stmt 0 decl)).toList) ∧
        LastLine (join (stmt 0 decl)).toList (join (sign .end :: trailing decl.closing)).toList := by
  have hneat := Program.neat_of_parse h
  obtain ⟨m, hm⟩ := program_spaced hneat
  refine ⟨⟨not_triple_of_newlines hm, not_double_prefix_of_newlines hm⟩, fun init decl after hp hdecl => ?_⟩
  obtain ⟨before, comments, hinit, hcomments, hlast, hapart⟩ := Program.format_apart hp hdecl
  have hmem : decl ∈ p.stmts := hp ▸ List.mem_append_right _ List.mem_cons_self
  exact ⟨before, comments, hinit, hcomments, hlast, hapart, stmt_lastLine hdecl (hneat decl hmem)⟩

/-- A function with a comment above it, below blank lines and a literal on several lines. -/
def apartSource : String :=
  "print [1\n\n\n2]\n\n\n// none\nfunc f\n return // early\nend // done\nf\n"

theorem apartSource_canonical : ∃ p, Program.parse apartSource .standard = .ok p ∧
    ¬ ['\n', '\n', '\n'] <:+: p.format.toList ∧ ∃ init decl after, p.stmts = init ++ decl :: after ∧
      standsApart decl = true ∧ ∃ before comments, init = before ++ comments ∧
        StandApart p.format.toList (textBefore before (comments ++ decl :: after))
          (commentText comments ++ (join (stmt 0 decl)).toList) := by
  have hparse : (Program.parse apartSource .standard).toOption.any (·.stmts.any standsApart) = true := by
    decide +kernel
  cases hp : Program.parse apartSource .standard with
  | error problems =>
    rw [hp] at hparse
    cases hparse
  | ok p =>
    rw [hp] at hparse
    obtain ⟨decl, hmem, hdecl⟩ := List.any_eq_true.1 hparse
    obtain ⟨init, after, hsplit⟩ := List.append_of_mem hmem
    obtain ⟨⟨hrow, -⟩, hdecls⟩ := Program.format_canonical hp
    obtain ⟨before, comments, hinit, -, -, hapart, -⟩ := hdecls init decl after hsplit hdecl
    exact ⟨p, rfl, hrow, init, decl, after, hsplit, hdecl, before, comments, hinit, hapart⟩

end TinyScript
