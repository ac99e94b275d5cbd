import TinyScript.Proofs.Layout.ReadExpressions
import TinyScript.Proofs.Layout.Statements
import TinyScript.Proofs.Parsing.Statements

/-!
# Statements that are read are neat

A statement is read from a line whose names and comments can be seen, so it is neat, with the statements of
its blocks (`statement_neat`, `block_neat`).
-/

namespace TinyScript

/-- The variable stands at a name that can be seen. -/
structure Var.Legible (v : Var) : Prop where
  token : v.token.Legible
  name : Visible v.name

namespace Parsing
open Layout

variable {A : Token → Prop}

/-! ### Steps from a state that is known -/

namespace PointsFrom
variable {α β : Type} {s : State}

/-- A look at the state. -/
theorem look {R : β → Prop} {g : State → α} {f : α → Parse β} (hf : PointsFrom A s (f (g s)) R) :
    PointsFrom A s ((return g (← get) : Parse α) >>= f) R :=
  ⟨hf.input, hf.pointed, hf.result⟩

theorem lift {Q : α → Prop} {m : Parse α} (hm : PointsFrom A s m Q) :
    PointsFrom A s (liftM m : Attempt α).run fun r => ∀ a, r = some a → Q a :=
  hm.bind fun _ t ha _ ht => Points.pure (fun _ h => Option.some.inj h ▸ ha) t ht

theorem orNextLine {Q : α → Prop} {m : Attempt α} (hm : PointsFrom A s m.run fun r => ∀ a, r = some a → Q a) :
    PointsFrom A s (orNextLine m).run fun r => ∀ a, r = some a → Q a := by
  refine hm.bind fun r t hr _ ht => ?_
  split
  · exact (Points.nextLine.andThen fun _ => .pure hr) t ht
  · exact Points.pure hr t ht

end PointsFrom

theorem comment?_noted : Points Token.Legible comment? Noted := by
  refine Points.get.bind fun s hs => .pure fun text htext => ?_
  unfold State.comment? at htext
  split at htext
  · next hk =>
    cases htext
    exact hs.cur.comment hk
  · cases htext

/-! ### Declarations -/

/-- A variable is read with its type at a name. -/
theorem typedVar_legible {s : State} (hs : s.Pointed Token.Legible) (hk : s.cur.kind = .ident) :
    PointsFrom Token.Legible s typedVar fun r => r.1.Legible := by
  have htoken := hs.cur
  have hname := htoken.name hk
  refine .look ((Points.advance.andThen fun _ => Points.advance.andThen fun _ => ?_) s hs)
  refine type_points.andThen fun ty => Points.cur.andThen fun _ => ?_
  extract_lets value rest
  have hvar : Var.Legible ⟨s.cur, s.cur.literal, ty⟩ := ⟨htoken, hname⟩
  exact .ite ((Points.reportAt htoken _).andThen fun _ => .pure hvar) (.pure hvar)

theorem typedDecl_neat {s : State} (hs : s.Pointed Token.Legible) (hk : s.cur.kind = .ident) :
    PointsFrom Token.Legible s typedDecl Stmt.Neat := by
  refine (typedVar_legible hs hk).bind fun ⟨v, value⟩ t hv _ ht => ?_
  dsimp -zeta only
  extract_lets rest
  have hrest (u : Unit) : Points Token.Legible (rest u) Stmt.Neat :=
    comment?_noted.bind fun comment hcomment => Points.nextLine.andThen fun _ => .pure (.typedDecl hcomment hv.name)
  refine Points.ite ((checkDecl_points hv.token _).andThen fun ok => ?_) (hrest ()) t ht
  exact .ite ((declareVar_points hv.token).andThen fun _ => Points.expectLineEnd.andThen hrest) (hrest ())

theorem inferredDecl_neat {s : State} (hs : s.Pointed Token.Legible) (hk : s.cur.kind = .ident) :
    PointsFrom Token.Legible s inferredDecl.run fun r => ∀ stmt, r = some stmt → stmt.Neat := by
  have htoken := hs.cur
  have hname := htoken.name hk
  refine PointsFrom.bind (Q := fun r => ∀ stmt : Stmt, r = some stmt → stmt.Neat) (.peek ?_) fun r t hr _ ht =>
    (Points.nextLine.andThen fun _ => .pure hr) t ht
  refine Aims.after .advance (fun _ => .after .advance fun _ => .after .cur fun _ => ?_) s hs
  refine (Aims.lift topLevelExpr_legible).bind fun value? hvalue => ?_
  cases value? with
  | none => exact .fail _
  | some value =>
    refine .ifFail (.fail _) (.after (checkDecl_points (by exact htoken) _) fun ok => ?_)
    refine .unlessFail .failure (.after (declareVar_points (by exact htoken)) fun _ => ?_)
    refine .after .expectLineEnd fun _ => (Aims.lift comment?_noted).bind fun comment hcomment => .pure ?_
    exact .inferredDecl hcomment hname (hvalue value rfl).neat.infer

/-! ### Simple statements -/

theorem emptyLine_neat : Points Token.Legible emptyLine Stmt.Neat := by
  refine Points.cur.andThen fun token => comment?_noted.bind fun comment hcomment => ?_
  have hrest : Points Token.Legible (do
      advance
      return Stmt.empty token comment) Stmt.Neat := Points.advance.andThen fun _ => .pure (.empty hcomment)
  exact .ite (Points.advance.andThen fun _ => hrest) hrest

theorem targetWithin_legible {token : Token} (htoken : token.Legible) (fuel : Nat) {target : Expr}
    (htarget : target.Legible) : Aims Token.Legible (targetWithin token fuel target) Expr.Legible := by
  induction fuel generalizing target with
  | zero => exact .pure htarget
  | succ fuel ih =>
    refine .after .look fun k => ?_
    split
    · refine .ifFail (.failAt htoken _) ?_
      exact (indexOrSlice_legible nested_legible htarget.neat _).bind fun target htarget => ih htarget
    · exact (field_legible htarget.neat).bind fun target htarget => ih htarget
    · exact .pure htarget

/-- The target of an assignment is read at a name. -/
theorem assignTarget_legible {s : State} (hs : s.Pointed Token.Legible) (hk : s.cur.kind = .ident) :
    PointsFrom Token.Legible s assignTarget.run fun r => ∀ e, r = some e → e.Legible := by
  have htoken := hs.cur
  have hname := htoken.name hk
  refine .peek (Aims.after .advance (fun _ => .ifFail (.failAt htoken _) ?_) s hs)
  refine (Aims.lift (readVar?_named _)).bind fun v? hv => ?_
  cases v? with
  | none => exact .failAt htoken _
  | some v =>
    have hvisible : Visible v.name := by
      rw [hv v rfl]
      exact hname
    exact .after .get fun s => targetWithin_legible htoken _ ⟨htoken, .var hvisible⟩

theorem assignment_neat {s : State} (hs : s.Pointed Token.Legible) (hk : s.cur.kind = .ident) :
    PointsFrom Token.Legible s assignment.run fun r => ∀ stmt, r = some stmt → stmt.Neat := by
  have htoken := hs.cur
  have hvalue {target : Expr} (htarget : target.Legible) : Aims Token.Legible (do
      let _ ← expect .assign
      advance
      let value ← topLevelExpr
      unless target.ty.accepts value.ty do
        reportAt s.cur (.assignType target value.ty)
      expectLineEnd
      let comment ← OptionT.lift comment?
      nextLine
      return .assign s.cur comment target (value.wrap target.ty)) Stmt.Neat := by
    refine .after (.expect _) fun _ => .after .advance fun _ => topLevelExpr_legible.bind fun value hvalue => ?_
    extract_lets rest
    have hrest (u : Unit) : Aims Token.Legible (rest u) Stmt.Neat :=
      .after .expectLineEnd fun _ => (Aims.lift comment?_noted).bind fun comment hcomment =>
        .after .nextLine fun _ => .pure (.assign hcomment htarget.neat (hvalue.neat.wrap _))
    exact .ite (hrest ()) (.after (.reportAt htoken _) hrest)
  refine .orNextLine (.peek (.peek (g := fun t => t.isFunc s.cur.literal) ?_))
  have hrest := (assignTarget_legible hs hk).tryBind fun target htarget => hvalue htarget
  split
  · exact (Aims.fail (Q := fun _ => False) _ s hs).tryBind fun _ hfalse => hfalse.elim
  · exact hrest

theorem callStmt_neat {s : State} (hs : s.Pointed Token.Legible) (hk : s.cur.kind = .ident) :
    PointsFrom Token.Legible s callStmt.run fun r => ∀ stmt, r = some stmt → stmt.Neat := by
  refine .orNextLine ((call_legible nested_legible hs hk).tryBind fun c hc => .after .expectLineEnd fun _ => ?_)
  refine (Aims.lift comment?_noted).bind fun comment hcomment => .after .nextLine fun _ => .pure ?_
  exact .call hcomment hc.name hc.args

theorem returnStmt_neat : Points Token.Legible returnStmt Stmt.Neat := by
  refine Points.look.andThen fun token => Points.advance.andThen fun _ => Points.cur.bind fun valueToken hvalue => ?_
  refine Points.look.andThen fun ended => ?_
  extract_lets finish afterValue
  have hfinish (u : Unit) {value : Option Expr} (hvalue : ∀ e, value = some e → e.Neat) :
      Points Token.Legible (finish u value) Stmt.Neat :=
    comment?_noted.bind fun comment hcomment => Points.nextLine.andThen fun _ => .pure (.ret hcomment hvalue)
  have hafter (value : Option Expr) (hread : ∀ e, value = some e → e.Legible) :
      Points Token.Legible (afterValue value) Stmt.Neat := by
    have hneat : ∀ e, value = some e → e.Neat := fun e he => (hread e he).neat
    have hwrapped (result : Ty) : ∀ e, value.map (Expr.wrap result) = some e → e.Neat := by
      intro e he
      obtain ⟨e, hvalue, rfl⟩ := Option.map_eq_some_iff.1 he
      exact (hneat e hvalue).wrap result
    have hreport (problem : Problem) : Points Token.Legible (do
        let u ← reportAt valueToken problem
        finish u value) Stmt.Neat := (Points.reportAt hvalue _).andThen fun u => hfinish u hneat
    refine .ite (Points.expectLineEnd.andThen fun _ => Points.get.andThen fun s => ?_)
      (Points.get.andThen fun s => ?_)
    all_goals
      split
      · exact hreport _
      · exact .ite (hfinish () (hwrapped _)) (.ite (hreport _) (hreport _))
  exact .ite (hafter none nofun) (Points.bind topLevelExpr_legible hafter)

theorem breakStmt_neat : Points Token.Legible breakStmt Stmt.Neat := by
  refine Points.look.andThen fun token => Points.get.andThen fun s => ?_
  extract_lets rest
  have hrest (u : Unit) : Points Token.Legible (rest u) Stmt.Neat :=
    Points.advance.andThen fun _ => Points.expectLineEnd.andThen fun _ =>
      comment?_noted.bind fun comment hcomment => Points.nextLine.andThen fun _ => .pure (.brk hcomment)
  exact .ite (hrest ()) ((Points.report _).andThen hrest)

/-! ### Statements with blocks -/

theorem blockEnd_noted : Points Token.Legible blockEnd Noted :=
  (Points.expect _).andThen fun _ => Points.advance.andThen fun _ => comment?_noted.bind fun _ hcomment =>
    Points.nextLine.andThen fun _ => .pure hcomment

theorem condition_legible : Aims Token.Legible condition Expr.Legible := by
  refine (Aims.lift .cur).bind fun token htoken => topLevelExpr_legible.bind fun e he =>
    .after .expectLineEnd fun _ => ?_
  exact .ite (.pure he) (.after (.reportAt htoken _) fun _ => .pure he)

section
variable {block : Blocks} (h : ∀ ends, Points Token.Legible (block ends) Block.Neat)
include h

theorem branch_neat (ends : List TokenKind) :
    Points Token.Legible (branch block ends) fun r => ∀ b, r = some b → b.Neat := by
  refine Points.look.andThen fun token => Points.advance.andThen fun _ => ?_
  refine Points.bind condition_legible fun condition hcondition => comment?_noted.bind fun comment hcomment => ?_
  refine Points.nextLine.andThen fun _ => (h ends).bind fun body hbody => .pure fun b hb => ?_
  obtain ⟨e, he, rfl⟩ := Option.map_eq_some_iff.1 hb
  exact .mk (hcondition e he).neat hcomment hbody

theorem whileStmt_neat : Aims Token.Legible (whileStmt block) Stmt.Neat := by
  refine Points.look.andThen fun token => Points.advance.andThen fun _ => (enterScope_points _).andThen fun _ => ?_
  refine Points.bind condition_legible fun condition hcondition => comment?_noted.bind fun comment hcomment => ?_
  refine Points.nextLine.andThen fun _ => (h _).bind fun body hbody => leaveScope_points.andThen fun _ => ?_
  refine blockEnd_noted.bind fun endComment hend => .pure fun stmt hstmt => ?_
  obtain ⟨e, he, rfl⟩ := Option.map_eq_some_iff.1 hstmt
  exact .loop (hcondition e he).neat hcomment (hbody.withComment hend)

theorem scopedBranch_neat : Points Token.Legible (scopedBranch block) fun r => ∀ b, r = some b → b.Neat :=
  (enterScope_points _).andThen fun _ => (branch_neat h _).bind fun _ hb =>
    leaveScope_points.andThen fun _ => .pure hb

theorem moreBranches_neat (fuel : Nat) {done : Array (Option Branch)}
    (hdone : ∀ r ∈ done, ∀ b, r = some b → b.Neat) :
    Points Token.Legible (moreBranches block fuel done) fun rs => ∀ r ∈ rs, ∀ b, r = some b → b.Neat := by
  induction fuel generalizing done with
  | zero => exact .pure fun r hr => hdone r (Array.mem_toList_iff.1 hr)
  | succ fuel ih =>
    refine Points.get.andThen fun s => .ite ?_ (.pure fun r hr => hdone r (Array.mem_toList_iff.1 hr))
    refine Points.advance.andThen fun _ => (scopedBranch_neat h).bind fun b hb => ih ?_
    exact fun r hr => (Array.mem_push.1 hr).elim (hdone r) fun heq => heq ▸ hb

theorem otherwise_neat : Points Token.Legible (otherwise block) fun r => ∀ b, r = some b → b.Neat := by
  refine Points.look.andThen fun k => .ite (.pure (by simp)) (Points.advance.andThen fun _ => ?_)
  refine Points.expectLineEnd.andThen fun _ => comment?_noted.bind fun comment hcomment => ?_
  refine Points.nextLine.andThen fun _ => (enterScope_points _).andThen fun _ => (h _).bind fun body hbody => ?_
  refine leaveScope_points.andThen fun _ => .pure fun b hb => ?_
  cases hb
  exact hbody.withComment hcomment

theorem ifStmt_neat : Aims Token.Legible (ifStmt block) Stmt.Neat := by
  refine Points.look.andThen fun token => (scopedBranch_neat h).bind fun first hfirst => Points.get.andThen fun s => ?_
  refine (moreBranches_neat h _ (by simp)).bind fun more hmore => (otherwise_neat h).bind fun last hlast => ?_
  refine blockEnd_noted.bind fun comment hcomment => .pure fun stmt hstmt => ?_
  cases first with
  | none => cases hstmt
  | some first =>
    cases hmap : more.mapM id with
    | none => simp [hmap] at hstmt
    | some branches =>
      obtain rfl : _ = stmt := by simpa [hmap] using hstmt
      obtain rfl := eq_map_some hmap
      exact .cond hcomment (hfirst first rfl) (fun b hb => hmore _ (List.mem_map_of_mem hb) b rfl) hlast

end

/-! ### Loops -/

theorem stepRange_neat {args : List Expr} (hargs : ∀ e ∈ args, e.Neat) {token : Token} (htoken : token.Legible) :
    Aims Token.Legible (stepRange args token) Range.Neat := by
  unfold stepRange
  extract_lets finish judge
  have hfinish (u : PUnit) : Aims Token.Legible (finish u) Range.Neat := by
    dsimp only [finish]
    split
    · exact .pure (by simpa [Range.Neat] using hargs)
    · exact .pure (by simpa [Range.Neat] using hargs)
    · exact .pure (by simpa [Range.Neat] using hargs)
    · exact .failure
  have hjudge (u : PUnit) : Aims Token.Legible (judge u) Range.Neat := by
    dsimp only [judge]
    split
    · exact (Aims.failAt (Q := fun _ => True) htoken _).andThen hfinish
    · exact hfinish ⟨⟩
  exact .ite ((Aims.failAt (Q := fun _ => True) htoken _).andThen hjudge) (hjudge ⟨⟩)

theorem rangeOf_neat {first : Expr} {args : List Expr} (hfirst : first.Neat) (hargs : ∀ e ∈ args, e.Neat)
    {token : Token} (htoken : token.Legible) :
    Points Token.Legible (rangeOf first args token) fun r => ∀ range, r.1 = some range → range.Neat := by
  have hover : ∀ range, some (Range.over first) = some range → range.Neat :=
    fun _ heq => Option.some.inj heq ▸ hfirst
  unfold rangeOf
  dsimp only
  split
  · exact .pure hover
  · exact .pure hover
  · exact .pure hover
  · exact Points.bind (stepRange_neat hargs htoken) fun _ hrange => .pure hrange
  · exact (Points.report _).andThen fun _ => .pure nofun

theorem loopVar_legible : Aims Token.Legible loopVar fun var => ∀ v, var = some v → v.Legible := by
  refine (Aims.lift .cur).bind fun token htoken => ?_
  dsimp only
  split
  · exact .pure nofun
  · next hk =>
    have hv : Var.Legible ⟨token, token.literal, .none⟩ := ⟨htoken, htoken.name (not_not.1 hk)⟩
    refine .after (checkDecl_points hv.token _) fun ok => .unlessFail .failure (.after .advance fun _ => ?_)
    refine .after (.expect _) fun _ => .after .advance fun _ => .pure fun v heq => ?_
    cases heq
    exact hv

/-- The head of a loop has a variable and a range that are neat. -/
structure EachHead.Neat (head : EachHead) : Prop where
  var : ∀ v, head.var = some v → v.Legible
  range : ∀ range, head.range = some range → range.Neat

theorem eachHead_neat : Aims Token.Legible eachHead EachHead.Neat := by
  refine .orNextLine (loopVar_legible.bind fun var hvar => (Aims.require _).andThen fun _ => ?_)
  refine (Aims.lift .cur).bind fun token htoken => .after .advance fun _ => ?_
  refine (exprList_legible nested_legible).bind fun args hargs => ?_
  cases args with
  | nil => exact .fail _
  | cons first rest =>
    dsimp -zeta only
    have hneat : ∀ e ∈ first :: rest, e.Neat := fun e he => (hargs e he).neat
    refine .ifFail (.fail _) (.after .expectLineEnd fun _ => ?_)
    exact (Aims.lift (rangeOf_neat (hneat first List.mem_cons_self) hneat htoken)).bind fun ⟨_, _⟩ hrange =>
      .pure ⟨hvar, hrange⟩

section
variable {block : Blocks} (h : ∀ ends, Points Token.Legible (block ends) Block.Neat)
include h

theorem eachBody_neat (token : Token) : Aims Token.Legible (eachBody block token) Stmt.Neat := by
  refine .after .advance fun _ => eachHead_neat.bind fun head hhead => ?_
  extract_lets var
  have hvar : ∀ v, var = some v → v.Legible := by
    intro v hv
    obtain ⟨w, hw, rfl⟩ := Option.map_eq_some_iff.1 hv
    exact ⟨(hhead.var w hw).token, (hhead.var w hw).name⟩
  rw [forM_lift]
  refine .after (.optionForM fun v hv => declareVar_points (hvar v hv).token) fun _ => ?_
  refine (Aims.lift comment?_noted).bind fun comment hcomment => .after .nextLine fun _ => ?_
  refine (Aims.lift (h _)).bind fun body hbody => .after leaveScope_points fun _ => ?_
  refine (Aims.lift blockEnd_noted).bind fun endComment hend => ?_
  cases hrange : head.range with
  | none => exact .failure
  | some range =>
    exact .pure (.each hcomment (fun v hv => (hvar v hv).name) (hhead.range range hrange) (hbody.withComment hend))

theorem eachStmt_neat : Aims Token.Legible (eachStmt block) Stmt.Neat := by
  refine Points.look.andThen fun token => (enterScope_points _).andThen fun _ => ?_
  refine Points.bind (eachBody_neat h token) fun stmt hstmt => ?_
  exact .ite (dropScope_points.andThen fun _ => .pure hstmt) (.pure hstmt)

theorem statement_neat : Aims Token.Legible (statement block) Stmt.Neat := by
  have hnone (problem : Problem) : Aims Token.Legible (orNextLine (fail problem : Attempt Stmt)) Stmt.Neat :=
    .orNextLine (.fail _)
  refine .here (g := id) fun s hs => ?_
  dsimp only [id]
  split
  · exact Aims.after .advance (fun _ => .failure) s hs
  · exact Aims.lift emptyLine_neat s hs
  · exact Aims.lift emptyLine_neat s hs
  · next hk =>
    generalize s.peek.kind = next
    split
    · exact assignment_neat hs hk
    · exact assignment_neat hs hk
    · exact (typedDecl_neat hs hk).lift
    · exact inferredDecl_neat hs hk
    · split
      · exact callStmt_neat hs hk
      split
      · exact assignment_neat hs hk
      · exact hnone _ s hs
  · exact Aims.lift returnStmt_neat s hs
  · exact Aims.lift breakStmt_neat s hs
  · exact eachStmt_neat h s hs
  · exact whileStmt_neat h s hs
  · exact ifStmt_neat h s hs
  · exact hnone _ s hs

theorem stmtsWithin_neat (ends : List TokenKind) (fuel : Nat) {done : Array Stmt} (terminated : Bool)
    (hdone : ∀ stmt ∈ done, stmt.Neat) :
    Points Token.Legible (stmtsWithin block ends fuel done terminated) fun stmts => ∀ stmt ∈ stmts, stmt.Neat := by
  have hend : ∀ stmt ∈ done.toList, stmt.Neat := fun stmt hstmt => hdone stmt (Array.mem_toList_iff.1 hstmt)
  induction fuel generalizing done terminated with
  | zero => exact .pure hend
  | succ fuel ih =>
    refine Points.cur.bind fun token htoken => .ite (.pure hend) ?_
    refine Points.bind (statement_neat h) fun stmt? hstmt => ?_
    cases stmt? with
    | none => exact ih _ hdone hend
    | some stmt =>
      have hpush : ∀ t ∈ done.push stmt, t.Neat :=
        fun t ht => (Array.mem_push.1 ht).elim (hdone t) fun heq => heq ▸ hstmt stmt rfl
      refine .ite ((Points.reportAt htoken _).andThen fun _ => ih _ hdone hend) (ih _ hpush ?_)
      exact fun t ht => hpush t (Array.mem_toList_iff.1 ht)

end

theorem blockWithin_neat (fuel : Nat) (ends : List TokenKind) :
    Points Token.Legible (blockWithin fuel ends) Block.Neat := by
  induction fuel generalizing ends with
  | zero => exact .pure ⟨by simp [default, Block.stmts], .none⟩
  | succ fuel ih =>
    refine Points.cur.bind fun token htoken => Points.get.andThen fun s => ?_
    refine (stmtsWithin_neat ih ends _ false (by simp)).bind fun stmts hstmts => ?_
    have hblock : (Block.mk token none stmts).Neat := ⟨hstmts, .none⟩
    exact .ite ((Points.reportAt htoken _).andThen fun _ => .pure hblock) (.pure hblock)

/-- The blocks of a program that is read, with or without problems, are neat. -/
theorem block_neat (ends : List TokenKind) : Points Token.Legible (block ends) Block.Neat :=
  Points.get.andThen fun _ => blockWithin_neat _ ends

end Parsing

end TinyScript
