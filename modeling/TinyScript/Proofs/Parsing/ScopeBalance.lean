import TinyScript.Parsing.Program
import TinyScript.Proofs.Parsing.Recovery

/-!
# The scopes after errors

A statement, a function and a handler close every scope that they open, whatever is wrong with them, and
the scopes around keep their variables. There is one exception: a loop whose range is wrong closes its
scope after the body, and then the scope around it as well. So as many scopes are lost as there were
problems with the ranges of loops (`scopes_survive_recovery`).
-/

namespace TinyScript.Parsing

theorem forM_lift {α : Type} (f : α → Parse PUnit) (o : Option α) :
    (o.forM fun a => (liftM (f a) : Attempt PUnit)) = liftM (o.forM f) := by
  cases o <;> rfl

namespace State

/-- A scope is lost with each problem with the range of a loop, and `k` more scopes were closed than
opened. Those that are left have the variables they had, and the innermost one may have more. -/
def Closes (k : Nat) (s t : State) : Prop :=
  ∃ n, t.badRanges = s.badRanges + n ∧ Scopes.Grown (s.scopes.drop (n + k)) t.scopes

theorem Closes.trans {j k : Nat} {s t u : State} (h : s.Closes j t) (h' : t.Closes k u) :
    s.Closes (j + k) u := by
  obtain ⟨n, hbad, hscopes⟩ := h
  obtain ⟨m, hbad', hscopes'⟩ := h'
  refine ⟨n + m, by omega, ?_⟩
  have hdrop := hscopes.drop (m + k)
  rw [List.drop_drop, show n + j + (m + k) = n + m + (j + k) by omega] at hdrop
  exact hdrop.trans hscopes'

theorem Quiet.closes {s t : State} (h : s.Quiet t) : s.Closes 0 t :=
  ⟨0, h.badRanges, h.scopes.grown⟩

instance : AdmitsQuiet (Closes 0) where
  refl s := (Quiet.refl s).closes
  trans _ _ _ := Closes.trans
  of_quiet := Quiet.closes

end State

/-- The parser closes the scopes that it opens, and one around it for each problem with a range. -/
abbrev Balanced {α : Type} (m : Parse α) : Prop :=
  Steps (State.Closes 0) m

/-- The parser closes the innermost scope besides those that it opens. -/
abbrev Closing {α : Type} (m : Parse α) : Prop :=
  Steps (State.Closes 1) m

/-- The parser opens a scope. -/
def Opens (m : Parse Unit) : Prop :=
  ∀ s : State, ∃ scope : Scope, (m.run s).2 = { s with scopes := scope :: s.scopes }

section
variable {α β : Type} {m : Parse α}

/-- What is opened is closed later. -/
theorem Opens.andClose {m : Parse Unit} {f : Unit → Parse β} (hm : Opens m) (hf : ∀ u, Closing (f u)) :
    Balanced (m >>= f) := by
  intro s
  obtain ⟨scope, hs⟩ := hm s
  have hclosed : State.Closes 1 (m.run s).2 ((m >>= f).run s).2 := hf (m.run s).1 (m.run s).2
  rw [hs] at hclosed
  exact hclosed

theorem Opens.andCloseTry {m : Parse Unit} {f : Unit → Attempt β} (hm : Opens m)
    (hf : ∀ u, Closing (f u).run) : Balanced (liftM m >>= f : Attempt β).run :=
  hm.andClose (f := fun u => (f u).run) hf

theorem opens_enterScope (kind : ScopeKind) : Opens (enterScope kind) := fun _ => ⟨_, rfl⟩

theorem opens_enterScopeWith (kind : ScopeKind) (result : Option Ty) :
    Opens (enterScopeWith kind result) := fun _ => ⟨_, rfl⟩

/-- What comes before a scope is closed. -/
theorem Closing.after {f : α → Parse β} (hm : Balanced m) (hf : ∀ a, Closing (f a)) : Closing (m >>= f) :=
  fun s => (hm s).trans (hf (m.run s).1 (m.run s).2)

theorem Closing.afterTry {f : α → Attempt β} (hm : Balanced m) (hf : ∀ a, Closing (f a).run) :
    Closing (liftM m >>= f : Attempt β).run :=
  .after (f := fun a => (f a).run) hm hf

theorem dropScope_closing : Closing dropScope := fun s => by
  refine ⟨0, rfl, ?_⟩
  show Scopes.Grown (s.scopes.drop 1) s.scopes.tail
  rw [List.drop_one]
  exact .refl _

theorem leaveScope_closing : Closing leaveScope := by
  refine Closing.after .get fun s t => ?_
  have hreports : Balanced (s.scopes.unused.forM fun v => reportAt v.token (.unused v.name)) :=
    .forM (fun v => .reportAt rfl _) _
  exact (dropScope_closing t).trans (hreports _)

/-- What comes after a scope was closed. -/
theorem leaveScope_andThen {f : Unit → Parse β} (hf : ∀ u, Balanced (f u)) : Closing (leaveScope >>= f) :=
  fun s => (leaveScope_closing s).trans (hf _ _)

theorem leaveScope_andTry {f : Unit → Attempt β} (hf : ∀ u, Balanced (f u).run) :
    Closing (liftM leaveScope >>= f : Attempt β).run :=
  leaveScope_andThen (f := fun u => (f u).run) hf

end

/-! ### Declarations -/

/-- What is wrong with a declaration is not the range of a loop. -/
theorem isRange_of_declProblem? {s : State} {name : String} {allowAnonymous : Bool} {problem : Problem}
    (h : s.declProblem? name allowAnonymous = some problem) : problem.isRange = false := by
  unfold State.declProblem? at h
  repeat' split at h
  all_goals cases h <;> rfl

theorem checkDecl_quiet (v : Var) (allowAnonymous : Bool) : Quiet (checkDecl v allowAnonymous) := by
  refine Steps.get.bind fun s => ?_
  split
  · exact .pure _
  · next problem hproblem =>
    exact (Steps.reportAt (isRange_of_declProblem? hproblem) _).bind fun _ => .pure _

theorem declareVar_balanced (v : Var) : Balanced (declareVar v) :=
  fun s => ⟨0, rfl, .declare s.scopes v false⟩

theorem typedVar_quiet : Quiet typedVar := by
  refine Steps.look.bind fun token => Steps.advance.bind fun _ => Steps.advance.bind fun _ => ?_
  refine type_quiet.bind fun ty => Steps.look.bind fun _ => ?_
  extract_lets value rest
  exact .ite ((Steps.reportAt rfl _).bind fun _ => .pure _) (.pure _)

theorem typedDecl_balanced : Balanced typedDecl := by
  refine (Steps.ofQuiet typedVar_quiet).bind fun ⟨v, value⟩ => ?_
  dsimp -zeta only
  extract_lets rest
  have hrest (u : Unit) : Balanced (rest u) := Steps.look.bind fun _ => Steps.nextLine.bind fun _ => .pure _
  refine .ite (.bind (.ofQuiet (checkDecl_quiet _ _)) fun ok => ?_) (hrest ())
  exact .ite ((declareVar_balanced v).bind fun _ => Steps.expectLineEnd.bind hrest) (hrest ())

theorem inferredDecl_balanced : Balanced inferredDecl.run := by
  refine Steps.bind ?_ fun stmt => Steps.nextLine.bind fun _ => .pure _
  refine .lift .look fun token => .lift .advance fun _ => .lift .advance fun _ => .lift .look fun _ => ?_
  refine .lift (.ofQuiet topLevelExpr_quiet) fun value? => ?_
  cases value? with
  | none => exact .fail rfl
  | some value =>
    refine .ifFail (.fail rfl) (.lift (.ofQuiet (checkDecl_quiet _ _)) fun ok => ?_)
    refine .unlessFail .failure (.lift (declareVar_balanced _) fun _ => ?_)
    exact .lift .expectLineEnd fun _ => .lift .look fun _ => .pure _

/-! ### Simple statements -/

theorem emptyLine_quiet : Quiet emptyLine := by
  refine Steps.look.bind fun token => Steps.look.bind fun comment => ?_
  have hrest : Quiet (do
      advance
      return Stmt.empty token comment) := Steps.advance.bind fun _ => .pure _
  exact .ite (Steps.advance.bind fun _ => hrest) hrest

theorem targetWithin_quiet (token : Token) (fuel : Nat) (target : Expr) :
    Quiet (targetWithin token fuel target).run := by
  induction fuel generalizing target with
  | zero => exact .pure _
  | succ fuel ih =>
    refine .lift .look fun k => ?_
    split
    · refine .ifFail (.failAt rfl _) ?_
      exact .andTry (indexOrSlice_quiet nested_quiet _ _) fun target => ih target
    · exact .andTry (field_quiet _) fun target => ih target
    · exact .pure _

theorem assignTarget_quiet : Quiet assignTarget.run := by
  refine .lift .look fun token => .lift .advance fun _ => .ifFail (.failAt rfl _) ?_
  refine .lift (.readVar? _) fun v? => ?_
  cases v? with
  | none => exact .failAt rfl _
  | some v => exact .state fun s => targetWithin_quiet _ _ _

theorem assignment_quiet : Quiet assignment.run := by
  refine .orNextLine (.lift .look fun token => .lift .look fun _ => .ifFail (.fail rfl) ?_)
  refine .andTry assignTarget_quiet fun target => .lift (.expect _) fun _ => .lift .advance fun _ => ?_
  refine .andTry topLevelExpr_quiet fun value => ?_
  extract_lets rest
  have hrest (u : Unit) : Quiet (rest u).run :=
    .lift .expectLineEnd fun _ => .lift .look fun _ => .lift .nextLine fun _ => .pure _
  exact .tryIte (hrest ()) (.lift (.reportAt rfl _) hrest)

theorem callStmt_quiet : Quiet callStmt.run := by
  refine .orNextLine (.andTry (call_quiet nested_quiet) fun c => .lift .expectLineEnd fun _ => ?_)
  exact .lift .look fun _ => .lift .nextLine fun _ => .pure _

theorem returnStmt_quiet : Quiet returnStmt := by
  refine Steps.look.bind fun token => Steps.advance.bind fun _ => Steps.look.bind fun _ => ?_
  refine Steps.look.bind fun ended => ?_
  extract_lets finish afterValue
  have hfinish (u : Unit) (value : Option Expr) : Quiet (finish u value) :=
    Steps.look.bind fun _ => Steps.nextLine.bind fun _ => .pure _
  have hafter (value : Option Expr) : Quiet (afterValue value) := by
    have hreport (token : Token) {problem : Problem} (h : problem.isRange = false) : Quiet (do
        let u ← reportAt token problem
        finish u value) := (Steps.reportAt h _).bind fun u => hfinish u _
    refine .ite (Steps.expectLineEnd.bind fun _ => Steps.get.bind fun s => ?_) (Steps.get.bind fun s => ?_)
    all_goals
      split
      · exact hreport _ rfl
      · exact .ite (hfinish () _) (.ite (hreport _ rfl) (hreport _ rfl))
  exact .ite (hafter none) (topLevelExpr_quiet.bind hafter)

theorem breakStmt_quiet : Quiet breakStmt := by
  refine Steps.look.bind fun token => Steps.get.bind fun s => ?_
  extract_lets rest
  have hrest (u : Unit) : Quiet (rest u) :=
    Steps.advance.bind fun _ => Steps.expectLineEnd.bind fun _ => Steps.look.bind fun _ =>
      Steps.nextLine.bind fun _ => .pure _
  exact .ite (hrest ()) ((Steps.report rfl).bind hrest)

/-! ### Statements with blocks -/

theorem blockEnd_quiet : Quiet blockEnd :=
  (Steps.expect _).bind fun _ => Steps.advance.bind fun _ => Steps.look.bind fun _ =>
    Steps.nextLine.bind fun _ => .pure _

theorem condition_quiet : Quiet condition.run := by
  refine .lift .look fun token => .andTry topLevelExpr_quiet fun e => .lift .expectLineEnd fun _ => ?_
  exact .tryIte (.pure _) (.lift (.reportAt rfl _) fun _ => .pure _)

section
variable {block : Blocks} (h : ∀ ends, Balanced (block ends))
include h

theorem branch_balanced (ends : List TokenKind) : Balanced (branch block ends) := by
  refine Steps.look.bind fun token => Steps.advance.bind fun _ => ?_
  refine (Steps.ofQuiet condition_quiet).bind fun condition => Steps.look.bind fun _ => ?_
  exact Steps.nextLine.bind fun _ => (h ends).bind fun _ => .pure _

theorem whileStmt_balanced : Balanced (whileStmt block).run := by
  refine Steps.look.bind fun token => Steps.advance.bind fun _ => (opens_enterScope _).andClose fun _ => ?_
  refine .after (.ofQuiet condition_quiet) fun condition => .after .look fun _ => .after .nextLine fun _ => ?_
  refine .after (h _) fun body => leaveScope_andThen fun _ => ?_
  exact (Steps.ofQuiet blockEnd_quiet).bind fun _ => .pure _

theorem scopedBranch_balanced : Balanced (scopedBranch block) :=
  (opens_enterScope _).andClose fun _ => .after (branch_balanced h _) fun _ =>
    leaveScope_andThen fun _ => .pure _

theorem moreBranches_balanced (fuel : Nat) (done : Array (Option Branch)) :
    Balanced (moreBranches block fuel done) := by
  induction fuel generalizing done with
  | zero => exact .pure _
  | succ fuel ih =>
    refine Steps.get.bind fun s => .ite ?_ (.pure _)
    exact Steps.advance.bind fun _ => (scopedBranch_balanced h).bind fun _ => ih _

theorem otherwise_balanced : Balanced (otherwise block) := by
  refine Steps.look.bind fun k => .ite (.pure _) (Steps.advance.bind fun _ => ?_)
  refine Steps.expectLineEnd.bind fun _ => Steps.look.bind fun _ => Steps.nextLine.bind fun _ => ?_
  exact (opens_enterScope _).andClose fun _ => .after (h _) fun _ => leaveScope_andThen fun _ => .pure _

theorem ifStmt_balanced : Balanced (ifStmt block).run := by
  refine Steps.look.bind fun token => (scopedBranch_balanced h).bind fun first => Steps.get.bind fun s => ?_
  refine (moreBranches_balanced h _ _).bind fun more => (otherwise_balanced h).bind fun last => ?_
  exact (Steps.ofQuiet blockEnd_quiet).bind fun _ => .pure _

end

/-! ### Loops over ranges -/

namespace State

/-- There are `k` more problems with the ranges of loops, and the open scopes have the same
variables. -/
structure Reports (k : Nat) (s t : State) : Prop where
  badRanges : t.badRanges = s.badRanges + k
  scopes : Scopes.Kept s.scopes t.scopes

theorem Quiet.reports {k : Nat} {s t u : State} (h : s.Quiet t) (h' : t.Reports k u) : s.Reports k u :=
  ⟨h'.badRanges.trans (congrArg (· + k) h.badRanges), h.scopes.trans h'.scopes⟩

/-- Each problem with a range closes a scope, so it makes up for one that was closed. -/
theorem Reports.closes {j k : Nat} {s t u : State} (h : s.Reports k t) (h' : t.Closes (j + k) u) :
    s.Closes j u := by
  obtain ⟨n, hbad, hscopes⟩ := h'
  have hdrop := h.scopes.grown.drop (n + (j + k))
  refine ⟨n + k, by rw [hbad, h.badRanges]; omega, ?_⟩
  rw [show n + k + j = n + (j + k) by omega]
  exact hdrop.trans hscopes

theorem reports_report (s : State) (token : Token) {problem : Problem} (h : problem.isRange = true) :
    s.Reports 1 (s.report token problem) :=
  ⟨by simp [badRanges, report, h], Scopes.Kept.refl _⟩

end State

/-- There is no range of numbers exactly if a problem with it is reported. -/
theorem stepRange_reports (first : Expr) (rest : List Expr) (token : Token) (s : State) :
    s.Reports ((stepRange (first :: rest) token).run.run s).1.isNone.toNat
      ((stepRange (first :: rest) token).run.run s).2 := by
  by_cases hmany : 3 < (first :: rest).length
  · have hrun : (stepRange (first :: rest) token).run.run s =
        (none, s.report token (.rangeCount (first :: rest).length)) := by
      unfold stepRange
      rw [if_pos hmany]
      rfl
    rw [hrun]
    exact s.reports_report token rfl
  unfold stepRange
  rw [if_neg hmany]
  cases hbad : badRangeArgument? 1 (first :: rest) with
  | some bad =>
    have hproblem : (Problem.rangeArgumentType bad.1 bad.2).isRange = true := rfl
    exact s.reports_report token hproblem
  | none =>
    match rest, hmany with
    | [], _ => exact ⟨rfl, Scopes.Kept.refl _⟩
    | [_], _ => exact ⟨rfl, Scopes.Kept.refl _⟩
    | [_, _], _ => exact ⟨rfl, Scopes.Kept.refl _⟩
    | _ :: _ :: _ :: _, hmany => exact absurd (by simp) hmany

/-- There is no range exactly if a problem with it is reported. -/
theorem rangeOf_reports (first : Expr) (rest : List Expr) (token : Token) (s : State) :
    s.Reports ((rangeOf first (first :: rest) token).run s).1.1.isNone.toNat
      ((rangeOf first (first :: rest) token).run s).2 := by
  unfold rangeOf
  dsimp only
  split
  · exact ⟨rfl, Scopes.Kept.refl _⟩
  · exact ⟨rfl, Scopes.Kept.refl _⟩
  · exact ⟨rfl, Scopes.Kept.refl _⟩
  · exact stepRange_reports first rest token s
  · exact s.reports_report s.cur rfl

theorem loopVar_quiet : Quiet loopVar.run := by
  refine .lift .look fun token => .tryIte (.pure _) ?_
  refine .lift (checkDecl_quiet _ _) fun ok => .unlessFail .failure (.lift .advance fun _ => ?_)
  exact .lift (.expect _) fun _ => .lift .advance fun _ => .pure _

/-- The parser reports as many problems with the ranges of loops as its result says. -/
def Reporting {α : Type} (count : α → Nat) (m : Parse α) : Prop :=
  ∀ s : State, s.Reports (count (m.run s).1) (m.run s).2

namespace Reporting

variable {α β : Type} {count : β → Nat}

theorem after {m : Parse α} {f : α → Parse β} (hm : Quiet m) (hf : ∀ a, Reporting count (f a)) :
    Reporting count (m >>= f) :=
  fun s => (hm s).reports (hf (m.run s).1 (m.run s).2)

theorem liftAfter {count : Option β → Nat} {m : Parse α} {f : α → Attempt β} (hm : Quiet m)
    (hf : ∀ a, Reporting count (f a).run) : Reporting count (liftM m >>= f : Attempt β).run :=
  after (f := fun a => (f a).run) hm hf

/-- Without a result nothing is counted. -/
theorem tryAfter {count : β → Nat} {m : Attempt α} {f : α → Attempt β} (hm : Quiet m.run)
    (hf : ∀ a, Reporting (·.elim 0 count) (f a).run) : Reporting (·.elim 0 count) (m >>= f).run := by
  refine after (f := fun r => match r with
    | some a => (f a).run
    | none => pure none) hm fun r => ?_
  cases r with
  | none => exact fun s => ⟨rfl, Scopes.Kept.refl _⟩
  | some a => exact hf a

theorem fail {count : β → Nat} {problem : Problem} (h : problem.isRange = false) :
    Reporting (·.elim 0 count) (fail problem : Attempt β).run :=
  fun s => ⟨s.badRanges_report s.cur h, Scopes.Kept.refl _⟩

theorem orNextLine {count : Option β → Nat} {m : Attempt β} (hm : Reporting count m.run) :
    Reporting count (orNextLine m).run := by
  intro s
  have hnext (r : Option β) (t : State) (h : s.Reports (count r) t) :
      let u := (do if r.isNone then nextLine
                   return r : Parse (Option β)).run t
      s.Reports (count u.1) u.2 := by
    dsimp only
    split
    · obtain ⟨hbad, hscopes⟩ := h
      have hquiet := State.moves_nextLine.quiet t
      exact ⟨hquiet.badRanges.trans hbad, hscopes.trans hquiet.scopes⟩
    · exact h
  exact hnext _ _ (hm s)

/-- As many scopes are closed as there are results, if the rest makes up for what was counted. -/
theorem andClose {count : α → Nat} {m : Attempt α} {f : α → Attempt β}
    (hm : Reporting (·.elim 0 count) m.run)
    (hf : ∀ a (s : State), s.Closes (((f a).run.run s).1.isSome.toNat + count a) ((f a).run.run s).2)
    (s : State) : s.Closes ((m >>= f).run.run s).1.isSome.toNat ((m >>= f).run.run s).2 := by
  have hrest (r : Option α) (t : State) : s.Reports (r.elim 0 count) t →
      let u := (match r with
        | some a => (f a).run
        | none => pure none : Parse (Option β)).run t
      s.Closes u.1.isSome.toNat u.2 := by
    intro h
    cases r with
    | none => exact ⟨0, h.badRanges, h.scopes.grown⟩
    | some a => exact h.closes (hf a t)
  exact hrest _ _ (hm s)

end Reporting

/-- How many problems with its range the head of a loop has. -/
def EachHead.badRanges (head : EachHead) : Nat :=
  head.range.isNone.toNat

theorem eachHead_reporting : Reporting (·.elim 0 EachHead.badRanges) eachHead.run := by
  refine .orNextLine (.tryAfter loopVar_quiet fun var => .tryAfter (.require _) fun _ => ?_)
  refine .liftAfter .look fun token => .liftAfter .advance fun _ => ?_
  refine .tryAfter (exprList_quiet nested_quiet) fun args => ?_
  cases args with
  | nil => exact .fail rfl
  | cons first rest =>
    dsimp -zeta only
    extract_lets finish
    have hfinish (u : PUnit) : Reporting (·.elim 0 EachHead.badRanges) (finish u).run :=
      .liftAfter .expectLineEnd fun _ => rangeOf_reports first rest token
    split
    · exact .tryAfter (.fail rfl) hfinish
    · exact hfinish ⟨⟩

section
variable {block : Blocks} (h : ∀ ends, Balanced (block ends))
include h

/-- The body of a loop closes the scope of the loop if the loop is kept, and leaves it open if not. With
a bad range it has closed that scope all the same. -/
theorem eachBody_closes (token : Token) (s : State) :
    s.Closes ((eachBody block token).run.run s).1.isSome.toNat ((eachBody block token).run.run s).2 := by
  have hhead : Reporting (·.elim 0 EachHead.badRanges) (do
      advance
      eachHead : Attempt EachHead).run := .liftAfter .advance fun _ => eachHead_reporting
  refine hhead.andClose ?_ s
  rintro ⟨var, range, ty⟩ t
  generalize var.map (fun v => { v with ty := ty }) = declared
  have hclosing (finish : Option String → Block → Option String → Attempt Stmt)
      (hfinish : ∀ comment body endComment, Quiet (finish comment body endComment).run) : Closing (do
        declared.forM declareVar
        let comment ← comment?
        nextLine
        let body ← block [.end, .eof]
        leaveScope
        let endComment ← blockEnd
        (finish comment body endComment).run) := by
    refine .after (.optionForM declareVar_balanced _) fun _ => .after .look fun comment => ?_
    refine .after .nextLine fun _ => .after (h _) fun body => leaveScope_andThen fun _ => ?_
    exact (Steps.ofQuiet blockEnd_quiet).bind fun _ => .ofQuiet (hfinish _ _ _)
  dsimp only
  rw [forM_lift]
  cases range with
  | none => exact hclosing (fun _ _ _ => failure) (fun _ _ _ => .failure) t
  | some range =>
    exact hclosing (fun comment body endComment => pure (.each token comment declared range
      (body.withComment endComment))) (fun _ _ _ => .pure _) t

theorem eachStmt_balanced : Balanced (eachStmt block).run := by
  refine Steps.look.bind fun token => (opens_enterScope _).andClose fun _ s => ?_
  -- Without a loop the innermost scope is dropped here, whether or not the body has closed the loop's own.
  have hdrop (r : Option Stmt) (t : State) (ht : s.Closes r.isSome.toNat t) :
      s.Closes 1 ((do
        if r.isNone then dropScope
        return r : Parse (Option Stmt)).run t).2 := by
    cases r with
    | none => exact ht.trans (dropScope_closing t)
    | some stmt => exact ht
  exact hdrop _ _ (eachBody_closes h token s)

theorem statement_balanced : Balanced (statement block).run := by
  refine .state fun s => ?_
  have hnone {problem : Problem} (hproblem : problem.isRange = false) :
      Balanced (orNextLine (fail problem : Attempt Stmt)).run := .orNextLine (.fail hproblem)
  split
  · exact .lift .advance fun _ => .failure
  · exact .lifted (.ofQuiet emptyLine_quiet)
  · exact .lifted (.ofQuiet emptyLine_quiet)
  · generalize s.peek.kind = next
    split
    · exact .ofQuiet assignment_quiet
    · exact .ofQuiet assignment_quiet
    · exact .lifted typedDecl_balanced
    · exact inferredDecl_balanced
    · refine .tryIte (.ofQuiet callStmt_quiet) ?_
      exact .tryIte (.ofQuiet assignment_quiet) (hnone rfl)
  · exact .lifted (.ofQuiet returnStmt_quiet)
  · exact .lifted (.ofQuiet breakStmt_quiet)
  · exact eachStmt_balanced h
  · exact whileStmt_balanced h
  · exact ifStmt_balanced h
  · exact hnone rfl

/-! ### Blocks -/

theorem stmtsWithin_balanced (ends : List TokenKind) (fuel : Nat) (done : Array Stmt) (terminated : Bool) :
    Balanced (stmtsWithin block ends fuel done terminated) := by
  induction fuel generalizing done terminated with
  | zero => exact .pure _
  | succ fuel ih =>
    refine Steps.look.bind fun token => .ite (.pure _) ((statement_balanced h).bind fun stmt? => ?_)
    cases stmt? with
    | none => exact ih _ _
    | some stmt => exact .ite ((Steps.reportAt rfl _).bind fun _ => ih _ _) (ih _ _)

end

theorem blockWithin_balanced (fuel : Nat) (ends : List TokenKind) : Balanced (blockWithin fuel ends) := by
  induction fuel generalizing ends with
  | zero => exact .pure _
  | succ fuel ih =>
    refine Steps.look.bind fun token => Steps.get.bind fun s => ?_
    refine (stmtsWithin_balanced ih ends _ _ _).bind fun stmts => ?_
    exact .ite ((Steps.reportAt rfl _).bind fun _ => .pure _) (.pure _)

theorem block_balanced (ends : List TokenKind) : Balanced (block ends) :=
  Steps.get.bind fun _ => blockWithin_balanced _ ends

/-! ### Functions and handlers -/

theorem declareParam_balanced (v : Var) (ty : Ty) : Balanced (declareParam v ty) :=
  (Steps.ofQuiet (checkDecl_quiet _ _)).bind fun _ => declareVar_balanced _

theorem declareParams_balanced (sig : Signature) : Balanced (declareParams sig) :=
  (Steps.forM (fun v => declareParam_balanced v _) _).bind fun _ =>
    .optionForM (fun v => declareParam_balanced v _) _

theorem function_balanced : Balanced function.run := by
  refine .lift .look fun token => .lift .advance fun _ => .lift .look fun nameToken => ?_
  refine .lift (.move State.moves_toLineEnd) fun _ => .state fun s => ?_
  extract_lets comment signature result
  rw [forM_lift]
  refine .lift .nextLine fun _ => (opens_enterScopeWith _ _).andCloseTry fun _ => ?_
  refine .afterTry (.optionForM (fun sig => declareParams_balanced sig) signature) fun _ => ?_
  refine .afterTry (block_balanced _) fun body => leaveScope_andTry fun _ => ?_
  extract_lets rest
  have hrest (u : Unit) : Balanced (rest u).run := by
    refine .lift (.ofQuiet blockEnd_quiet) fun endComment => ?_
    cases signature with
    | none => exact .failure
    | some sig =>
      refine .ifFail .failure (.state fun s => .ifFail .failure (.lift (m := modify _) ?_ fun _ => .pure _))
      exact .ofQuiet fun s => ⟨rfl, Scopes.Kept.refl _⟩
  exact .tryIte (.lift (.report rfl) hrest) (hrest ())

theorem declareEventParams_balanced (params expected : List Var) :
    Balanced (declareEventParams params expected) := by
  induction params generalizing expected with
  | nil => exact .pure _
  | cons v params ih =>
    refine (Steps.ofQuiet (checkDecl_quiet _ _)).bind fun _ => ?_
    refine Steps.bind (.optionForM (fun e => ?_) _) fun _ => ?_
    · exact .ite (.pure _) (.report rfl)
    · exact (declareVar_balanced _).bind fun _ => ih _

theorem checkEventParams_balanced (name : String) (params : List Var) :
    Balanced (checkEventParams name params) := by
  refine .ite (.pure _) (Steps.get.bind fun s => ?_)
  split
  · exact .pure _
  · have hdeclare := declareEventParams_balanced params
    exact .ite ((Steps.report rfl).bind fun _ => hdeclare _) (hdeclare _)

theorem eventParamsWithin_quiet (fuel : Nat) (done : Array Var) : Quiet (eventParamsWithin fuel done) := by
  induction fuel generalizing done with
  | zero => exact .pure _
  | succ fuel ih =>
    refine Steps.look.bind fun ended => .ite (.pure _) ((Steps.expect _).bind fun _ => ?_)
    exact typedVar_quiet.bind fun _ => ih _

/-- What is wrong with a handler for an event is not the range of a loop. -/
theorem isRange_of_handlerProblem? {s : State} {name : String} {problem : Problem}
    (h : s.handlerProblem? name = some problem) : problem.isRange = false := by
  unfold State.handlerProblem? at h
  repeat' split at h
  all_goals cases h <;> rfl

theorem handler_balanced : Balanced handler.run := by
  refine .lift .look fun token => .lift .advance fun _ => .andTry (.orNextLine (.require _)) fun _ => ?_
  refine .lift .look fun nameToken => .state fun s => ?_
  extract_lets problem
  rw [forM_lift]
  have hproblem : Balanced (problem.forM fun p => report p) := by
    cases hp : problem with
    | none => exact .pure _
    | some p => exact .report (isRange_of_handlerProblem? hp)
  refine .lift hproblem fun _ => .lift .advance fun _ => .state fun s => ?_
  refine .lift (.ofQuiet (eventParamsWithin_quiet _ _)) fun params => .lift .look fun comment => ?_
  refine .lift .nextLine fun _ => ?_
  refine (opens_enterScopeWith _ _).andCloseTry fun _ => .afterTry (checkEventParams_balanced _ _) fun _ => ?_
  refine .afterTry (block_balanced _) fun body => leaveScope_andTry fun _ => ?_
  refine .lift (.ofQuiet blockEnd_quiet) fun endComment => ?_
  refine .tryIte (.lift (m := modify _) ?_ fun _ => .pure _) (.pure _)
  exact .ofQuiet fun s => ⟨rfl, Scopes.Kept.refl _⟩

/-- From every state, a statement, a function and a handler leave the scopes that were open, but for the
innermost `n`, where `n` is the number of problems with the ranges of loops that they report. The scopes
that are left have the variables that they had, and those that were read still count as read. -/
theorem scopes_survive_recovery (s : State) :
    s.Closes 0 ((statement block).run.run s).2 ∧ s.Closes 0 (function.run.run s).2 ∧
      s.Closes 0 (handler.run.run s).2 :=
  ⟨statement_balanced block_balanced s, function_balanced s, handler_balanced s⟩

/-- The start of a loop over something that has no range, in the scope of a program. -/
def loopOverBool : State :=
  { State.start "for range true\n    break\nend\n" default with scopes := [⟨.program, #[], none⟩] }

/-- The loop closes the scope of the program. -/
theorem loopOverBool_drops_scope :
    ¬Scopes.Grown loopOverBool.scopes ((statement block).run.run loopOverBool).2.scopes := by
  have hclosed : ((statement block).run.run loopOverBool).2.scopes.length = 0 := by decide +kernel
  intro h
  exact absurd (h.length_eq.symm.trans hclosed) (by decide)

end TinyScript.Parsing
