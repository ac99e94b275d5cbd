import TinyScript.Prelude.Standard
import TinyScript.Proofs.Binding.Signatures
import TinyScript.Proofs.Parsing.Pointing
import TinyScript.Proofs.Parsing.ScopeBalance
import TinyScript.Proofs.Token.Covering

/-!
# Where the problems of a source are

Every problem of a source is reported at one of its tokens, with one exception: a `func` that is followed by
something else than a name, whose text is the name of a function of the host, declares the parameters of that
function for its body, and these stand nowhere in the source (`Program.analyze_standsIn_or_borrowed`).
-/

namespace TinyScript

/-- The parameters of a function are declared at tokens in `A`. -/
def Signature.Pointed (A : Token → Prop) (sig : Signature) : Prop :=
  ∀ v ∈ Parsing.allParams sig, A v.token

namespace Parsing

variable {A : Token → Prop}

/-! ### Declarations -/

theorem checkDecl_points {v : Var} (hv : A v.token) (allowAnonymous : Bool) :
    Points A (checkDecl v allowAnonymous) fun _ => True := by
  refine Points.get.andThen fun s => ?_
  split
  · exact .pure trivial
  · exact (Points.reportAt hv _).andThen fun _ => .pure trivial

theorem declareVar_points {v : Var} (hv : A v.token) : Points A (declareVar v) fun _ => True :=
  .rescope fun _ hs => hs.scopes.declare fun _ => hv

theorem enterScope_points (kind : ScopeKind) : Points A (enterScope kind) fun _ => True :=
  .rescope fun _ hs => hs.scopes.enterWith kind _

theorem enterScopeWith_points (kind : ScopeKind) (result : Option Ty) :
    Points A (enterScopeWith kind result) fun _ => True :=
  .rescope fun _ hs => hs.scopes.enterWith kind result

theorem dropScope_points : Points A dropScope fun _ => True :=
  .rescope fun _ hs => hs.scopes.tail

theorem leaveScope_points : Points A leaveScope fun _ => True := by
  refine Points.get.bind fun s hs => dropScope_points.andThen fun _ => .forM fun v hv => ?_
  exact .reportAt (hs.scopes.unused v hv) _

theorem typedVar_points : Points A typedVar fun r => A r.1.token := by
  refine Points.cur.bind fun token htoken => Points.advance.andThen fun _ => Points.advance.andThen fun _ => ?_
  refine type_points.andThen fun ty => Points.cur.andThen fun _ => ?_
  extract_lets value rest
  exact .ite ((Points.reportAt htoken _).andThen fun _ => .pure htoken) (.pure htoken)

theorem typedDecl_points : Points A typedDecl fun _ => True := by
  refine typedVar_points.bind fun ⟨v, value⟩ hv => ?_
  dsimp -zeta only
  extract_lets rest
  have hrest (u : Unit) : Points A (rest u) fun _ => True :=
    Points.look.andThen fun _ => Points.nextLine.andThen fun _ => .pure trivial
  refine .ite ((checkDecl_points hv _).andThen fun ok => ?_) (hrest ())
  exact .ite ((declareVar_points hv).andThen fun _ => Points.expectLineEnd.andThen hrest) (hrest ())

theorem inferredDecl_points : Aims A inferredDecl fun _ => True := by
  refine Points.andThen (Q := fun stmt? => ∀ stmt : Stmt, stmt? = some stmt → True) ?_ fun _ =>
    Points.nextLine.andThen fun _ => .pure fun _ _ => trivial
  refine (Aims.lift .cur).bind fun token htoken => .after .advance fun _ => .after .advance fun _ =>
    .after .cur fun _ => ?_
  refine .after topLevelExpr_points fun value? => ?_
  cases value? with
  | none => exact .fail _
  | some value =>
    refine .ifFail (.fail _) (.after (checkDecl_points (by exact htoken) _) fun ok => ?_)
    refine .unlessFail .failure (.after (declareVar_points (by exact htoken)) fun _ => ?_)
    exact .after .expectLineEnd fun _ => .after .look fun _ => .pure trivial

/-! ### Simple statements -/

theorem emptyLine_points : Points A emptyLine fun _ => True := by
  refine Points.cur.andThen fun token => Points.look.andThen fun comment => ?_
  have hrest : Points A (do
      advance
      return Stmt.empty token comment) fun _ => True := Points.advance.andThen fun _ => .pure trivial
  exact .ite (Points.advance.andThen fun _ => hrest) hrest

theorem targetWithin_points {token : Token} (htoken : A token) (fuel : Nat) (target : Expr) :
    Aims A (targetWithin token fuel target) fun _ => True := by
  induction fuel generalizing target with
  | zero => exact .pure trivial
  | succ fuel ih =>
    refine .after .look fun k => ?_
    split
    · exact .ifFail (.failAt htoken _) ((indexOrSlice_points nested_points _ _).andThen fun target => ih target)
    · exact (field_points _).andThen fun target => ih target
    · exact .pure trivial

theorem assignTarget_points : Aims A assignTarget fun _ => True := by
  refine (Aims.lift .cur).bind fun token htoken => .after .advance fun _ => .ifFail (.failAt htoken _) ?_
  refine .after (readVar?_points _) fun v? => ?_
  cases v? with
  | none => exact .failAt htoken _
  | some v => exact .after .get fun s => targetWithin_points htoken _ _

theorem assignment_points : Aims A assignment fun _ => True := by
  refine .orNextLine ((Aims.lift .cur).bind fun token htoken => .after .look fun _ => .ifFail (.fail _) ?_)
  refine assignTarget_points.andThen fun target => .after (.expect _) fun _ => .after .advance fun _ => ?_
  refine topLevelExpr_points.andThen fun value => ?_
  extract_lets rest
  have hrest (u : Unit) : Aims A (rest u) fun _ => True :=
    .after .expectLineEnd fun _ => .after .look fun _ => .after .nextLine fun _ => .pure trivial
  exact .ite (hrest ()) (.after (.reportAt htoken _) hrest)

theorem callStmt_points : Aims A callStmt fun _ => True := by
  refine .orNextLine ((call_points nested_points).andThen fun c => .after .expectLineEnd fun _ => ?_)
  exact .after .look fun _ => .after .nextLine fun _ => .pure trivial

theorem returnStmt_points : Points A returnStmt fun _ => True := by
  refine Points.look.andThen fun token => Points.advance.andThen fun _ => Points.cur.bind fun valueToken hvalue => ?_
  refine Points.look.andThen fun ended => ?_
  extract_lets finish afterValue
  have hfinish (u : Unit) (value : Option Expr) : Points A (finish u value) fun _ => True :=
    Points.look.andThen fun _ => Points.nextLine.andThen fun _ => .pure trivial
  have hafter (value : Option Expr) : Points A (afterValue value) fun _ => True := by
    have hreport (problem : Problem) : Points A (do
        let u ← reportAt valueToken problem
        finish u value) fun _ => True := (Points.reportAt hvalue _).andThen fun u => hfinish u _
    refine .ite (Points.expectLineEnd.andThen fun _ => Points.get.andThen fun s => ?_)
      (Points.get.andThen fun s => ?_)
    all_goals
      split
      · exact hreport _
      · exact .ite (hfinish () _) (.ite (hreport _) (hreport _))
  exact .ite (hafter none) (Points.andThen topLevelExpr_points hafter)

theorem breakStmt_points : Points A breakStmt fun _ => True := by
  refine Points.look.andThen fun token => Points.get.andThen fun s => ?_
  extract_lets rest
  have hrest (u : Unit) : Points A (rest u) fun _ => True :=
    Points.advance.andThen fun _ => Points.expectLineEnd.andThen fun _ => Points.look.andThen fun _ =>
      Points.nextLine.andThen fun _ => .pure trivial
  exact .ite (hrest ()) ((Points.report _).andThen hrest)

/-! ### Statements with blocks -/

theorem blockEnd_points : Points A blockEnd fun _ => True :=
  (Points.expect _).andThen fun _ => Points.advance.andThen fun _ => Points.look.andThen fun _ =>
    Points.nextLine.andThen fun _ => .pure trivial

theorem condition_points : Aims A condition fun _ => True := by
  refine (Aims.lift .cur).bind fun token htoken => topLevelExpr_points.andThen fun e =>
    .after .expectLineEnd fun _ => ?_
  exact .ite (.pure trivial) (.after (.reportAt htoken _) fun _ => .pure trivial)

section
variable {block : Blocks} (h : ∀ ends, Points A (block ends) fun _ => True)
include h

theorem branch_points (ends : List TokenKind) : Points A (branch block ends) fun _ => True := by
  refine Points.look.andThen fun token => Points.advance.andThen fun _ => ?_
  refine Points.andThen condition_points fun condition => Points.look.andThen fun _ => ?_
  exact Points.nextLine.andThen fun _ => (h ends).andThen fun _ => .pure trivial

theorem whileStmt_points : Aims A (whileStmt block) fun _ => True := by
  refine Points.look.andThen fun token => Points.advance.andThen fun _ => (enterScope_points _).andThen fun _ => ?_
  refine Points.andThen condition_points fun condition => Points.look.andThen fun _ => ?_
  refine Points.nextLine.andThen fun _ => (h _).andThen fun body => leaveScope_points.andThen fun _ => ?_
  exact blockEnd_points.andThen fun _ => .pure fun _ _ => trivial

theorem scopedBranch_points : Points A (scopedBranch block) fun _ => True :=
  (enterScope_points _).andThen fun _ => (branch_points h _).andThen fun _ =>
    leaveScope_points.andThen fun _ => .pure trivial

theorem moreBranches_points (fuel : Nat) (done : Array (Option Branch)) :
    Points A (moreBranches block fuel done) fun _ => True := by
  induction fuel generalizing done with
  | zero => exact .pure trivial
  | succ fuel ih =>
    refine Points.get.andThen fun s => .ite ?_ (.pure trivial)
    exact Points.advance.andThen fun _ => (scopedBranch_points h).andThen fun _ => ih _

theorem otherwise_points : Points A (otherwise block) fun _ => True := by
  refine Points.look.andThen fun k => .ite (.pure trivial) (Points.advance.andThen fun _ => ?_)
  refine Points.expectLineEnd.andThen fun _ => Points.look.andThen fun _ => Points.nextLine.andThen fun _ => ?_
  exact (enterScope_points _).andThen fun _ => (h _).andThen fun _ => leaveScope_points.andThen fun _ =>
    .pure trivial

theorem ifStmt_points : Aims A (ifStmt block) fun _ => True := by
  refine Points.look.andThen fun token => (scopedBranch_points h).andThen fun first => Points.get.andThen fun s => ?_
  refine (moreBranches_points h _ _).andThen fun more => (otherwise_points h).andThen fun last => ?_
  exact blockEnd_points.andThen fun _ => .pure fun _ _ => trivial

end

/-! ### Loops -/

theorem stepRange_points (args : List Expr) {token : Token} (htoken : A token) :
    Aims A (stepRange args token) fun _ => True := by
  refine .ifFail (.failAt htoken _) ?_
  split
  · refine (Aims.failAt (Q := fun _ => True) htoken _).andThen fun _ => ?_
    split <;> first | exact .pure trivial | exact .failure
  · split <;> first | exact .pure trivial | exact .failure

theorem rangeOf_points (first : Expr) (args : List Expr) {token : Token} (htoken : A token) :
    Points A (rangeOf first args token) fun _ => True := by
  unfold rangeOf
  dsimp only
  split
  · exact .pure trivial
  · exact .pure trivial
  · exact .pure trivial
  · exact Points.andThen (stepRange_points args htoken) fun _ => .pure trivial
  · exact (Points.report _).andThen fun _ => .pure trivial

theorem loopVar_points : Aims A loopVar fun var => ∀ v, var = some v → A v.token := by
  refine (Aims.lift .cur).bind fun token htoken => .ite (.pure nofun) ?_
  refine .after (checkDecl_points (by exact htoken) _) fun ok => .unlessFail .failure (.after .advance fun _ => ?_)
  refine .after (.expect _) fun _ => .after .advance fun _ => .pure fun v hv => ?_
  cases hv
  exact htoken

theorem eachHead_points : Aims A eachHead fun head => ∀ v, head.var = some v → A v.token := by
  refine .orNextLine (loopVar_points.bind fun var hvar => (Aims.require _).andThen fun _ => ?_)
  refine (Aims.lift .cur).bind fun token htoken => .after .advance fun _ => ?_
  refine (exprList_points nested_points).andThen fun args => ?_
  cases args with
  | nil => exact .fail _
  | cons first rest =>
    dsimp -zeta only
    refine .ifFail (.fail _) (.after .expectLineEnd fun _ => .after (rangeOf_points _ _ htoken) fun ⟨_, _⟩ => ?_)
    exact .pure hvar

section
variable {block : Blocks} (h : ∀ ends, Points A (block ends) fun _ => True)
include h

theorem eachBody_points (token : Token) : Aims A (eachBody block token) fun _ => True := by
  refine .after .advance fun _ => eachHead_points.bind fun head hhead => ?_
  extract_lets var
  rw [forM_lift]
  refine .after (.optionForM fun v hv => declareVar_points ?_) fun _ => .after .look fun comment => ?_
  · obtain ⟨w, hw, rfl⟩ := Option.map_eq_some_iff.1 hv
    exact hhead w hw
  refine .after .nextLine fun _ => .after (h _) fun body => .after leaveScope_points fun _ => ?_
  refine .after blockEnd_points fun _ => ?_
  cases head.range with
  | none => exact .failure
  | some range => exact .pure trivial

theorem eachStmt_points : Aims A (eachStmt block) fun _ => True := by
  refine Points.look.andThen fun token => (enterScope_points _).andThen fun _ => ?_
  refine Points.andThen (eachBody_points h token) fun stmt => ?_
  exact .ite (dropScope_points.andThen fun _ => .pure fun _ _ => trivial) (.pure fun _ _ => trivial)

theorem statement_points : Aims A (statement block) fun _ => True := by
  refine .after .get fun s => ?_
  have hnone (problem : Problem) : Aims A (orNextLine (fail problem : Attempt Stmt)) fun _ => True :=
    .orNextLine (.fail _)
  split
  · exact .after .advance fun _ => .failure
  · exact .lift emptyLine_points
  · exact .lift emptyLine_points
  · generalize s.peek.kind = next
    split
    · exact assignment_points
    · exact assignment_points
    · exact .lift typedDecl_points
    · exact inferredDecl_points
    · exact .ite callStmt_points (.ite assignment_points (hnone _))
  · exact .lift returnStmt_points
  · exact .lift breakStmt_points
  · exact eachStmt_points h
  · exact whileStmt_points h
  · exact ifStmt_points h
  · exact hnone _

theorem stmtsWithin_points (ends : List TokenKind) (fuel : Nat) (done : Array Stmt) (terminated : Bool) :
    Points A (stmtsWithin block ends fuel done terminated) fun _ => True := by
  induction fuel generalizing done terminated with
  | zero => exact .pure trivial
  | succ fuel ih =>
    refine Points.cur.bind fun token htoken => .ite (.pure trivial) ?_
    refine Points.andThen (statement_points h) fun stmt? => ?_
    cases stmt? with
    | none => exact ih _ _
    | some stmt => exact .ite ((Points.reportAt htoken _).andThen fun _ => ih _ _) (ih _ _)

end

theorem blockWithin_points (fuel : Nat) (ends : List TokenKind) :
    Points A (blockWithin fuel ends) fun _ => True := by
  induction fuel generalizing ends with
  | zero => exact .pure trivial
  | succ fuel ih =>
    refine Points.cur.bind fun token htoken => Points.get.andThen fun s => ?_
    refine (stmtsWithin_points ih ends _ _ _).andThen fun stmts => ?_
    exact .ite ((Points.reportAt htoken _).andThen fun _ => .pure trivial) (.pure trivial)

theorem block_points (ends : List TokenKind) : Points A (block ends) fun _ => True :=
  Points.get.andThen fun _ => blockWithin_points _ ends

/-! ### Steps from a state that is known -/

section
variable {α β : Type} {s t : State} {a : α}

theorem run_bind_eq {m : Parse α} {f : α → Parse β} (h : m.run s = (a, t)) : (m >>= f).run s = (f a).run t := by
  show (f (m.run s).1).run (m.run s).2 = _
  rw [h]

theorem run_bind_some {m : Attempt α} {f : α → Attempt β} (h : m.run.run s = (some a, t)) :
    (m >>= f).run.run s = (f a).run.run t := by
  rw [OptionT.run_bind]
  exact run_bind_eq h

theorem run_bind_none {m : Attempt α} {f : α → Attempt β} (h : m.run.run s = (none, t)) :
    (m >>= f).run.run s = (none, t) := by
  rw [OptionT.run_bind]
  exact run_bind_eq h

namespace PointsFrom
variable {R : Option β → Prop} {m : Attempt α} {f : α → Attempt β}

/-- Goes on from the state that a step ends in. -/
theorem next (hrun : m.run.run s = (some a, t)) (hinput : s.SameInput t) (hf : PointsFrom A t (f a).run R) :
    PointsFrom A s (m >>= f).run R := by
  refine ⟨?_, ?_, ?_⟩ <;> rw [run_bind_some hrun]
  · exact hinput.trans hf.input
  · exact hf.pointed
  · exact hf.result

theorem failed (hrun : m.run.run s = (none, t)) (hinput : s.SameInput t) (ht : t.Pointed A) (hnone : R none) :
    PointsFrom A s (m >>= f).run R :=
  of_run (run_bind_none hrun) hinput ht hnone

theorem peek {g : State → α} (hf : PointsFrom A s (f (g s)).run R) :
    PointsFrom A s (liftM (return g (← get) : Parse α) >>= f).run R :=
  next rfl (.refl s) hf

theorem step {g : State → State} {f : PUnit → Attempt β} (hg : s.Alike (g s))
    (hf : PointsFrom A (g s) (f ⟨⟩).run R) : PointsFrom A s (liftM (modify g : Parse PUnit) >>= f).run R :=
  next rfl hg.sameInput hf

end PointsFrom

end

/-! ### Functions and handlers -/

theorem declareParam_points {v : Var} (hv : A v.token) (ty : Ty) : Points A (declareParam v ty) fun _ => True :=
  (checkDecl_points hv _).andThen fun _ => declareVar_points (by exact hv)

theorem declareParams_points {sig : Signature} (hsig : sig.Pointed A) :
    Points A (declareParams sig) fun _ => True := by
  refine (Points.forM fun v hv => declareParam_points (hsig v (List.mem_append_left _ hv)) _).andThen fun _ => ?_
  refine .optionForM fun v hv => declareParam_points ?_ _
  have hmem : ({ v with ty := .array v.ty } : Var) ∈ allParams sig :=
    List.mem_append_right _ (by rw [hv]; exact List.mem_singleton_self _)
  exact hsig { v with ty := .array v.ty } hmem

theorem functionEnd_points (token nameToken : Token) (comment : Option String) (signature : Option Signature)
    (body : Block) : Aims A (functionEnd token nameToken comment signature body) fun _ => True := by
  refine .after blockEnd_points fun endComment => ?_
  cases signature with
  | none => exact .failure
  | some sig =>
    refine .ifFail .failure (.after .get fun s => .ifFail .failure ?_)
    refine .after (.update (fun _ => ⟨rfl, rfl, rfl, rfl⟩) fun _ hs => ?_) fun _ => .pure trivial
    exact ⟨hs.tokens, hs.eof, hs.problems, hs.scopes⟩

/-- What is read of a function after the line of its name. -/
def functionRest (token nameToken : Token) (comment : Option String) (signature : Option Signature) :
    Attempt Stmt := do
  nextLine
  let result := (signature.map (·.result)).getD .none
  enterScopeWith .func (some result)
  signature.forM fun sig => declareParams sig
  let body ← block [.end, .eof]
  leaveScope
  if !result.same .none && !body.terminates then
    report .missingReturn
  functionEnd token nameToken comment signature body

theorem functionRest_points (token nameToken : Token) (comment : Option String) {signature : Option Signature}
    (hsignature : ∀ sig, signature = some sig → sig.Pointed A) :
    Aims A (functionRest token nameToken comment signature) fun _ => True := by
  unfold functionRest
  rw [forM_lift]
  refine .after .nextLine fun _ => .after (enterScopeWith_points _ _) fun _ => ?_
  refine .after (.optionForM fun sig hsig => declareParams_points (hsignature sig hsig)) fun _ => ?_
  refine .after (block_points _) fun body => .after leaveScope_points fun _ => ?_
  have hend := functionEnd_points (A := A) token nameToken comment signature body
  exact .ite (.after (.report _) fun _ => hend) hend

namespace State

/-- The functions that are known by what follows a `func` have parameters at tokens in `A`. -/
structure Known (A : Token → Prop) (s : State) : Prop where
  eof : s.eof.kind = .eof
  params : ∀ q ∈ s.funcPositions, ∀ sig, s.func? (s.nameAt q).literal = some sig → sig.Pointed A

variable {s t : State}

theorem SameInput.nameAt (h : s.SameInput t) (q : Nat) : t.nameAt q = s.nameAt q :=
  cur_advance_congr h.tokens h.eof h.spacing rfl

theorem SameInput.funcPositions (h : s.SameInput t) : t.funcPositions = s.funcPositions := by
  simp only [State.funcPositions, tokenAt, h.tokens, h.eof]

theorem Known.of_sameInput (hs : s.Known A) (h : s.SameInput t) : t.Known A := by
  refine ⟨h.eof ▸ hs.eof, fun q hq sig hsig => ?_⟩
  rw [h.funcPositions] at hq
  rw [h.nameAt, func?, h.funcs] at hsig
  exact hs.params q hq sig hsig

theorem mem_funcPositions (heof : s.eof.kind = .eof) (hk : s.cur.kind = .func) : s.pos ∈ s.funcPositions := by
  refine List.mem_filter.2 ⟨List.mem_range.2 (Nat.lt_of_not_le fun hle => ?_), beq_iff_eq.2 hk⟩
  rw [cur, tokenAt, Array.getElem?_eq_none hle, Option.getD_none, heof] at hk
  cases hk

end State

theorem function_points {s : State} (hknown : s.Known A) (hs : s.Pointed A) (hk : s.cur.kind = .func) :
    PointsFrom A s function.run fun _ => True := by
  have hmove : s.Alike s.advance.toLineEnd := s.alike_advance.trans s.advance.alike_toLineEnd
  have hname : s.advance.cur = s.nameAt s.pos := rfl
  have hsig (sig : Signature) (hsig : s.advance.toLineEnd.func? s.advance.cur.literal = some sig) :
      sig.Pointed A := by
    rw [hname, State.func?, hmove.sameInput.funcs] at hsig
    exact hknown.params _ (State.mem_funcPositions hknown.eof hk) sig hsig
  refine .peek (.step s.alike_advance (.peek (.step s.advance.alike_toLineEnd (.peek (g := id) ?_))))
  exact (functionRest_points _ _ _ hsig _ (hs.of_alike hmove)).weaken fun _ _ => trivial

theorem declareEventParams_points {params : List Var} (hparams : ∀ v ∈ params, A v.token) (expected : List Var) :
    Points A (declareEventParams params expected) fun _ => True := by
  induction params generalizing expected with
  | nil => exact .pure trivial
  | cons v params ih =>
    obtain ⟨hv, hparams⟩ := List.forall_mem_cons.1 hparams
    refine (checkDecl_points hv _).andThen fun _ => ?_
    refine Points.andThen (.optionForM fun e _ => ?_) fun _ => ?_
    · exact .ite (.pure trivial) (.report _)
    · exact (declareVar_points hv).andThen fun _ => ih hparams _

theorem checkEventParams_points (name : String) {params : List Var} (hparams : ∀ v ∈ params, A v.token) :
    Points A (checkEventParams name params) fun _ => True := by
  refine .ite (.pure trivial) (Points.get.andThen fun s => ?_)
  split
  · exact .pure trivial
  · have hdeclare := declareEventParams_points hparams
    exact .ite ((Points.report _).andThen fun _ => hdeclare _) (hdeclare _)

theorem forall_mem_push {done : Array Var} {v : Var} (hdone : ∀ w ∈ done, A w.token) (hv : A v.token) :
    ∀ w ∈ done.push v, A w.token :=
  fun w hw => (Array.mem_push.1 hw).elim (hdone w) fun heq => heq ▸ hv

theorem eventParamsWithin_points (fuel : Nat) {done : Array Var} (hdone : ∀ v ∈ done, A v.token) :
    Points A (eventParamsWithin fuel done) fun vs => ∀ v ∈ vs, A v.token := by
  induction fuel generalizing done with
  | zero => exact .pure fun v hv => hdone v (Array.mem_toList_iff.1 hv)
  | succ fuel ih =>
    refine Points.look.andThen fun ended => .ite (.pure fun v hv => hdone v (Array.mem_toList_iff.1 hv)) ?_
    exact (Points.expect _).andThen fun _ => typedVar_points.bind fun r hr => ih (forall_mem_push hdone hr)

theorem handler_points : Aims A handler fun _ => True := by
  refine .after .look fun token => .after .advance fun _ => (Aims.orNextLine (.require _)).andThen fun _ => ?_
  refine .after .look fun nameToken => .after .get fun s => ?_
  extract_lets problem
  rw [forM_lift]
  refine .after (.optionForM fun p _ => .report _) fun _ => .after .advance fun _ => .after .get fun s => ?_
  refine (Aims.lift (eventParamsWithin_points s.fuel (by simp))).bind fun params hparams => ?_
  refine .after .look fun comment => .after .nextLine fun _ => .after (enterScopeWith_points _ _) fun _ => ?_
  refine .after (checkEventParams_points _ hparams) fun _ => .after (block_points _) fun body => ?_
  refine .after leaveScope_points fun _ => .after blockEnd_points fun endComment => ?_
  refine .ite (.after (.update (fun _ => ⟨rfl, rfl, rfl, rfl⟩) fun _ hs => ?_) fun _ => .pure trivial)
    (.pure trivial)
  exact ⟨hs.tokens, hs.eof, hs.problems, hs.scopes⟩

/-! ### Signatures -/

theorem paramsWithin_points (fuel : Nat) {done : Array Var} (hdone : ∀ v ∈ done, A v.token) :
    Points A (paramsWithin fuel done) fun vs => ∀ v ∈ vs, A v.token := by
  induction fuel generalizing done with
  | zero => exact .pure fun v hv => hdone v (Array.mem_toList_iff.1 hv)
  | succ fuel ih =>
    refine Points.look.andThen fun ended => Points.look.andThen fun k => ?_
    refine .ite (.pure fun v hv => hdone v (Array.mem_toList_iff.1 hv)) ?_
    exact (Points.expect _).andThen fun _ => typedVar_points.bind fun r hr => ih (forall_mem_push hdone hr)

/-- What is read of a signature after its name. -/
def signatureRest (token nameToken : Token) : Attempt (Token × Signature) := do
  advance
  let mut result := Ty.none
  if (← kind) = .colon then
    advance
    result ← type
    if result.kind = .illegal then
      reportAt token (.badResultType (← cur))
  signatureEnd token nameToken.literal result

/-- The signature that starts at `token` has been read, with its parameters at tokens in `A`. -/
def SignatureRead (A : Token → Prop) (token : Token) (name : String) (r : Option (Token × Signature)) : Prop :=
  ∃ sig, r = some (token, sig) ∧ sig.name = name ∧ sig.Pointed A

theorem signatureEnd_points (token : Token) (name : String) (result : Ty) :
    Points A (signatureEnd token name result).run (SignatureRead A token name) := by
  have hend (params : List Var) (variadic : Option Var)
      (h : Signature.Pointed A ⟨name, params, variadic, result⟩) : Points A (do
        expectLineEnd
        nextLine
        return (token, (⟨name, params, variadic, result⟩ : Signature)) : Attempt (Token × Signature)).run
        (SignatureRead A token name) :=
    Points.expectLineEnd.liftThen fun _ _ => Points.nextLine.liftThen fun _ _ => .pure ⟨_, rfl, rfl, h⟩
  refine Points.get.liftThen fun s _ => (paramsWithin_points s.fuel (by simp)).liftThen fun params hparams =>
    Points.look.liftThen fun k _ => ?_
  have hfixed : Signature.Pointed A ⟨name, params, none, result⟩ := by
    simpa [Signature.Pointed, allParams] using hparams
  dsimp only
  split
  · refine Points.advance.liftThen fun _ _ => ?_
    split
    · exact hend _ _ (by simpa [Signature.Pointed, allParams] using hparams)
    · exact (Points.report _).liftThen fun _ _ => hend _ _ hfixed
  · exact hend _ _ hfixed

theorem signatureRest_points {token : Token} (htoken : A token) (nameToken : Token) :
    Points A (signatureRest token nameToken).run (SignatureRead A token nameToken.literal) := by
  have hend (result : Ty) := signatureEnd_points (A := A) token nameToken.literal result
  refine Points.advance.liftThen fun _ _ => Points.look.liftThen fun k _ => ?_
  dsimp only
  split
  · refine Points.advance.liftThen fun _ _ => type_points.liftThen fun result _ => ?_
    split
    · exact Points.look.liftThen fun _ _ => (Points.reportAt htoken _).liftThen fun _ _ => hend _
    · exact hend _
  · exact hend _

theorem run_expect (expected : TokenKind) (s : State) : (expect expected).run s =
    if s.cur.kind = expected then (true, s) else (false, s.report s.cur (.expectedToken expected s.cur.kind)) := by
  show (if s.cur.kind = expected then _ else _ : Parse Bool).run s = _
  split <;> rfl

theorem run_orNextLine_require (expected : TokenKind) (s : State) : (orNextLine (require expected)).run.run s =
    if s.cur.kind = expected then (some ⟨⟩, s)
    else (none, (s.report s.cur (.expectedToken expected s.cur.kind)).nextLine) := by
  have hexpect : (liftM (expect expected) : Attempt Bool).run.run s =
    (some ((expect expected).run s).1, ((expect expected).run s).2) := rfl
  rw [run_expect] at hexpect
  by_cases hk : s.cur.kind = expected
  · rw [if_pos hk] at hexpect ⊢
    have hrequire : (require expected).run.run s = (some ⟨⟩, s) := run_bind_some hexpect
    exact run_bind_eq hrequire
  · rw [if_neg hk] at hexpect ⊢
    have hrequire : (require expected).run.run s = (none, _) := run_bind_some hexpect
    exact run_bind_eq hrequire

/-- A signature is read exactly if there is a name after the keyword. -/
theorem signature_points {s : State} (hs : s.Pointed A) : PointsFrom A s signature.run fun r =>
    r = none ∧ s.advance.cur.kind ≠ .ident ∨ SignatureRead A s.cur s.advance.cur.literal r := by
  have hadvance := hs.of_alike s.alike_advance
  have hrun := run_orNextLine_require .ident s.advance
  refine .peek (.step s.alike_advance ?_)
  by_cases hk : s.advance.cur.kind = .ident
  · rw [if_pos hk] at hrun
    have hrest := signatureRest_points hs.cur s.advance.cur _ hadvance
    exact .next hrun (.refl _) (.peek (hrest.weaken fun _ => .inr))
  · rw [if_neg hk] at hrun
    refine .failed hrun ?_ ?_ (.inl ⟨rfl, hk⟩)
    · exact (State.sameInput_report _ _ _).trans (State.alike_nextLine _).sameInput
    · exact (hadvance.report hadvance.cur _).of_alike (State.alike_nextLine _)

/-- Reports a function whose name is taken. -/
def reportTaken (token : Token) (sig : Signature) : Parse Unit := do
  let s ← get
  if s.prelude.isGlobal sig.name then
    reportAt token (.overridesGlobal sig.name)
  if (s.prelude.func? sig.name).isSome then
    reportAt token (.overridesFunction sig.name)
  else if s.isFunc sig.name then
    reportAt token (.functionRedeclared sig.name)

theorem addSignature_eq (token : Token) (sig : Signature) : addSignature token sig =
    reportTaken token sig >>= fun _ => modify fun s => { s with funcs := sig :: s.funcs } := by
  unfold addSignature reportTaken
  rw [bind_assoc]
  congr 1
  funext s
  dsimp only
  split <;> split <;> first | rfl | (split <;> rfl)

theorem reportTaken_points {token : Token} (htoken : A token) (sig : Signature) :
    Points A (reportTaken token sig) fun _ => True := by
  refine Points.get.andThen fun s => ?_
  have hnamed : Points A (if (s.prelude.func? sig.name).isSome then
      reportAt token (.overridesFunction sig.name)
    else if s.isFunc sig.name then
      reportAt token (.functionRedeclared sig.name)
    else pure ⟨⟩) fun _ => True :=
    .ite (.reportAt htoken _) (.ite (.reportAt htoken _) (.pure trivial))
  exact .ite ((Points.reportAt htoken _).andThen fun _ => hnamed) hnamed

namespace State

/-- The signatures at places of the source have been read, as far as there are names. -/
structure Signed (A : Token → Prop) (positions : List Nat) (s t : State) : Prop where
  pointed : t.Pointed A
  input : ({ s with funcs := t.funcs } : State).SameInput t
  funcs : ∃ read, t.funcs = read ++ s.funcs ∧ (∀ sig ∈ read, sig.Pointed A) ∧
    ∀ q ∈ positions, (s.nameAt q).kind = .ident → ∃ sig ∈ read, sig.name = (s.nameAt q).literal

variable {s t u : State} {ps qs : List Nat}

theorem Signed.nameAt (h : s.Signed A ps t) (q : Nat) : t.nameAt q = s.nameAt q :=
  cur_advance_congr h.input.tokens h.input.eof h.input.spacing rfl

theorem Signed.nil (hs : s.Pointed A) : s.Signed A [] s :=
  ⟨hs, .refl s, [], rfl, nofun, nofun⟩

theorem Signed.append (h : s.Signed A ps t) (h' : t.Signed A qs u) : s.Signed A (ps ++ qs) u := by
  obtain ⟨read, hread, hpointed, hnamed⟩ := h.funcs
  obtain ⟨read', hread', hpointed', hnamed'⟩ := h'.funcs
  refine ⟨h'.pointed, ⟨h'.input.tokens.trans h.input.tokens, h'.input.eof.trans h.input.eof,
    h'.input.spacing.trans h.input.spacing, rfl⟩, read' ++ read, ?_, ?_, ?_⟩
  · rw [hread', hread, List.append_assoc]
  · exact List.forall_mem_append.2 ⟨hpointed', hpointed⟩
  · intro q hq hk
    rcases List.mem_append.1 hq with hq | hq
    · obtain ⟨sig, hsig, hname⟩ := hnamed q hq hk
      exact ⟨sig, List.mem_append_right _ hsig, hname⟩
    · rw [← h.nameAt] at hk ⊢
      obtain ⟨sig, hsig, hname⟩ := hnamed' q hq hk
      exact ⟨sig, List.mem_append_left _ hsig, hname⟩

end State

/-- A signature that has been read is added, after what is wrong with its name was reported. -/
theorem addSignature_run {s : State} (hs : s.Pointed A) {token : Token} (htoken : A token) (sig : Signature) :
    ∃ t, (addSignature token sig).run s = (⟨⟩, { t with funcs := sig :: t.funcs }) ∧ s.SameInput t ∧
      t.Pointed A := by
  obtain ⟨hinput, ht, -⟩ := reportTaken_points htoken sig s hs
  exact ⟨_, by rw [addSignature_eq]; rfl, hinput, ht⟩

theorem signatureAt_points {s : State} (hs : s.Pointed A) (q : Nat) :
    s.Signed A [q] ((signatureAt q).run s).2 := by
  have hstart : ({ s with pos := q } : State).Pointed A := ⟨hs.tokens, hs.eof, hs.problems, hs.scopes⟩
  obtain ⟨hinput, ht, hread⟩ := signature_points hstart
  generalize hrun : signature.run.run { s with pos := q } = r at hinput ht hread
  obtain ⟨sig?, t⟩ := r
  have hplace : (modify fun s => { s with pos := q } : Parse PUnit).run s = (⟨⟩, { s with pos := q }) := rfl
  rcases hread with ⟨hnone, hk⟩ | ⟨sig, hsome, hname, hsig⟩
  · obtain rfl : sig? = none := hnone
    have hat : (signatureAt q).run s = (⟨⟩, t) := (run_bind_eq hplace).trans (run_bind_eq hrun)
    rw [hat]
    refine ⟨ht, ⟨hinput.tokens, hinput.eof, hinput.spacing, rfl⟩, [], hinput.funcs, nofun, ?_⟩
    exact List.forall_mem_singleton.2 fun hident => absurd hident hk
  · obtain rfl : sig? = some (_, sig) := hsome
    obtain ⟨u, hadd, hinput', hu⟩ := addSignature_run ht hstart.cur sig
    have hat : (signatureAt q).run s = _ := (run_bind_eq hplace).trans ((run_bind_eq hrun).trans hadd)
    have hsame := hinput.trans hinput'
    rw [hat]
    refine ⟨⟨hu.tokens, hu.eof, hu.problems, hu.scopes⟩, ⟨hsame.tokens, hsame.eof, hsame.spacing, rfl⟩,
      [sig], congrArg (sig :: ·) hsame.funcs, List.forall_mem_singleton.2 hsig, ?_⟩
    exact List.forall_mem_singleton.2 fun _ => ⟨sig, List.mem_singleton_self _, hname⟩

theorem signatures_point (positions : List Nat) {s : State} (hs : s.Pointed A) :
    s.Signed A positions ((positions.forM signatureAt).run s).2 := by
  induction positions generalizing s with
  | nil => exact .nil hs
  | cons q positions ih =>
    have hq := signatureAt_points hs q
    exact hq.append (ih hq.pointed)

/-! ### Programs -/

/-- A parameter that the host declares, of the function whose name is written after a `func` as something
else than a name. -/
def State.Borrowed (s : State) (t : Token) : Prop :=
  ∃ q ∈ s.funcPositions, (s.nameAt q).kind ≠ .ident ∧
    ∃ sig, s.prelude.func? (s.nameAt q).literal = some sig ∧ ∃ v ∈ allParams sig, v.token = t

theorem programWithin_points (fuel : Nat) (done : Array Stmt) (terminated : Bool) {s : State}
    (hknown : s.Known A) (hs : s.Pointed A) : PointsFrom A s (programWithin fuel done terminated) fun _ => True := by
  induction fuel generalizing done terminated s with
  | zero => exact ⟨.refl s, hs, trivial⟩
  | succ fuel ih =>
    have hrest {α : Type} {Q : α → Prop} {m : Parse α} {f : α → Parse (List Stmt)} (hm : PointsFrom A s m Q)
        (hf : ∀ a t, t.Known A → t.Pointed A → PointsFrom A t (f a) fun _ => True) :
        PointsFrom A s (m >>= f) fun _ => True :=
      hm.bind fun a t _ hinput ht => hf a t (hknown.of_sameInput hinput) ht
    have hround {f : Token → Parse (List Stmt)} (hf : PointsFrom A s (f s.cur) fun _ => True) :
        PointsFrom A s (cur >>= f) fun _ => True := ⟨hf.input, hf.pointed, trivial⟩
    refine hround ?_
    split
    · exact ⟨.refl s, hs, trivial⟩
    · next hk => exact hrest (function_points hknown hs hk) fun _ _ => ih _ _
    · exact hrest (handler_points s hs) fun _ _ => ih _ _
    · refine hrest (statement_points block_points s hs) fun stmt? t ht ht' => ?_
      cases stmt? with
      | none => exact ih _ _ ht ht'
      | some stmt =>
        dsimp only
        split
        · exact (Points.reportAt hs.cur _ t ht').bind fun _ u _ hinput hu =>
            ih _ _ (ht.of_sameInput hinput) hu
        · exact ih _ _ ht ht'

theorem start_pointed (source : String) (prelude : Prelude) (h : ∀ t ∈ Token.scan source, A t) :
    (State.start source prelude).Pointed A := by
  have htokens : ∀ t ∈ (State.start source prelude).tokens, A t :=
    fun t ht => h t (Array.mem_filter.1 ht).1
  refine ⟨htokens, ?_, fun d hd => ?_, nofun⟩
  · obtain ⟨last, hlast⟩ := back?_start_tokens source prelude
    show A ((State.start source prelude).tokens.back?.getD _)
    rw [hlast]
    exact htokens _ (Array.mem_of_back? hlast)
  · obtain ⟨t, ht, rfl⟩ := Array.mem_map.1 hd
    exact h t (Array.mem_filter.1 ht).1

theorem globalScopes_pointed {ss : Scopes} (hss : ss.Pointed A) (globals : List Var) :
    (globals.foldl (fun ss v => ss.declare v true) ss).Pointed A := by
  induction globals generalizing ss with
  | nil => exact hss
  | cons v globals ih => exact ih (hss.declare nofun)

/-- A function that is known by what follows its `func` has been read, or its parameters are borrowed. -/
theorem State.Signed.known {s t : State} (h : s.Signed A s.funcPositions t) (heof : s.eof.kind = .eof)
    (hfuncs : s.funcs = s.prelude.funcs) (hborrowed : ∀ token, s.Borrowed token → A token) : t.Known A := by
  have hpositions : t.funcPositions = s.funcPositions := h.input.funcPositions
  refine ⟨h.input.eof ▸ heof, fun q hq sig hsig => ?_⟩
  rw [hpositions] at hq
  obtain ⟨read, hread, hpointed, hnamed⟩ := h.funcs
  rw [h.nameAt, State.func?, hread, List.find?_append, Option.or_eq_some_iff] at hsig
  rcases hsig with hsig | ⟨hnone, hsig⟩
  · exact hpointed sig (List.mem_of_find?_eq_some hsig)
  · rw [hfuncs] at hsig
    refine fun v hv => hborrowed _ ⟨q, hq, fun hident => ?_, sig, hsig, v, hv, rfl⟩
    obtain ⟨found, hmem, hname⟩ := hnamed q hq hident
    exact List.find?_eq_none.1 hnone found hmem (beq_iff_eq.2 hname)

/-- All that is reported on the way through a source is at one of its tokens, or at a parameter that is
borrowed. -/
theorem program_points {source : String} {prelude : Prelude} (htokens : ∀ t ∈ Token.scan source, A t)
    (hborrowed : ∀ t, (State.start source prelude).Borrowed t → A t) :
    (program.run (State.start source prelude)).2.Pointed A := by
  have hsigned := signatures_point (State.start source prelude).funcPositions
    (start_pointed source prelude htokens)
  have hknown := hsigned.known (start_inRange source prelude).eof rfl hborrowed
  have hstmts (s : State) (hs : s.Known A) (hs' : s.Pointed A) : PointsFrom A s (do
      let stmts ← programWithin s.fuel #[] false
      leaveScope
      let s ← get
      return (⟨stmts, s.declared.toList, s.handlers.toList⟩ : Program)) fun _ => True :=
    (programWithin_points s.fuel #[] false hs hs').bind fun stmts t _ _ ht =>
      (leaveScope_points.andThen fun _ => Points.get.andThen fun s => .pure trivial) t ht
  generalize hrun :
    ((State.start source prelude).funcPositions.forM signatureAt).run (State.start source prelude) = r
    at hsigned hknown
  obtain ⟨u, t⟩ := r
  -- the state in which the statements are read
  let first : State := { t with
    scopes := t.prelude.globals.foldl (fun ss v => ss.declare v true) (t.scopes.enterWith .program none), pos := 0 }
  have hfirst : first.Pointed A := ⟨hsigned.pointed.tokens, hsigned.pointed.eof, hsigned.pointed.problems,
    globalScopes_pointed (hsigned.pointed.scopes.enterWith _ _) _⟩
  have hknown : first.Known A := hknown.of_sameInput ⟨rfl, rfl, rfl, rfl⟩
  have hstart : (get : Parse State).run (State.start source prelude) =
    (State.start source prelude, State.start source prelude) := rfl
  have hprogram : program.run (State.start source prelude) = _ := (run_bind_eq hstart).trans (run_bind_eq hrun)
  rw [hprogram]
  exact (hstmts first hknown hfirst).pointed

end Parsing

open Parsing

/-- Lexing the source gives the token, at a place within it. The line and the column count the newlines
before it and the characters since the last one. -/
structure Token.StandsIn (source : String) (t : Token) : Prop where
  mem : t ∈ Token.scan source
  offset_le : t.pos.offset ≤ source.toList.length
  line : t.pos.line = 1 + (source.toList.take t.pos.offset).count '\n'
  col : t.pos.col = 1 + ((source.toList.take t.pos.offset).reverse.takeWhile (· != '\n')).length

theorem Token.standsIn_of_mem {source : String} {t : Token} (h : t ∈ Token.scan source) : t.StandsIn source := by
  have hcovers := (Token.scan_cut source).covers
  have hmem : t ∈ (Token.scan source).toList := Array.mem_toList_iff.2 h
  obtain ⟨hline, hcol⟩ := hcovers.placed t hmem
  refine ⟨h, ?_, hline, hcol⟩
  obtain ⟨before, last, heq, -, hlast, -⟩ := hcovers.eof
  have hordered := hcovers.ordered
  rw [heq] at hmem hordered
  rcases List.mem_append.1 hmem with hmem | hmem
  · exact Nat.le_of_lt (hlast ▸ (List.pairwise_append.1 hordered).2.2 t hmem last List.mem_cons_self)
  · rw [List.mem_singleton.1 hmem, hlast]

/-- Every problem is reported at a token of the source, unless it is that of a parameter of a function of the
host that is found by the text after a `func` although that is no name. -/
theorem Program.analyze_standsIn_or_borrowed (source : String) (prelude : Prelude) :
    ∀ d ∈ (Program.analyze source prelude).2,
      d.token.StandsIn source ∨ (State.start source prelude).Borrowed d.token := by
  have hpointed : (program.run (State.start source prelude)).2.Pointed fun t =>
      t.StandsIn source ∨ (State.start source prelude).Borrowed t :=
    program_points (fun t ht => .inl (Token.standsIn_of_mem ht)) fun t => .inr
  rw [Program.analyze_eq]
  generalize program.run (State.start source prelude) = r at hpointed
  exact fun d hd => hpointed.problems d (Array.mem_toList_iff.1 hd)

/-- A source with a variable that is not declared. -/
def undeclaredSource : String :=
  "if true\n    print x\nend\n"

theorem undeclaredSource_standsIn : ∃ d ∈ (Program.analyze undeclaredSource .standard).2,
    d.token.StandsIn undeclaredSource := by
  have hsome : (Program.analyze undeclaredSource .standard).2.isEmpty = false := by decide +kernel
  have hfuncs : (State.start undeclaredSource .standard).funcPositions = [] := by decide +kernel
  obtain ⟨d, hd⟩ := List.exists_mem_of_ne_nil _ (List.isEmpty_eq_false_iff.1 hsome)
  refine ⟨d, hd, (Program.analyze_standsIn_or_borrowed _ _ d hd).resolve_right ?_⟩
  rintro ⟨q, hq, -⟩
  rw [hfuncs] at hq
  cases hq

/-- A source in which a text stands in the place of a function's name, that of a function of the host. -/
def quotedNameSource : String :=
  "func \"panic\"\n    print 1\nend\n"

/-- The parameter of that function is reported as unused, at no token of the source. -/
theorem quotedNameSource_misplaced : ¬ ∀ d ∈ (Program.analyze quotedNameSource .standard).2,
    ∃ t ∈ Token.scan quotedNameSource, t.pos = d.token.pos := by
  have hany : (Program.analyze quotedNameSource .standard).2.any (fun d =>
      (Token.scan quotedNameSource).all fun t => t.pos != d.token.pos) = true := by decide +kernel
  obtain ⟨d, hd, hall⟩ := List.any_eq_true.1 hany
  intro h
  obtain ⟨t, ht, heq⟩ := h d hd
  exact bne_iff_ne.1 (Array.all_eq_true'.1 hall t ht) heq

end TinyScript
