import Mathlib.Data.List.Forall2
import TinyScript.Parsing.Expression
import TinyScript.Proofs.Parsing.Steps

/-!
# What reading leaves of the scopes

Whatever is wrong with the source, an expression leaves all scopes open, with the variables that they
had (`Quiet`); it may mark more of them as read. Problems with the range of a loop are counted besides,
since those are what closes a scope too many; an expression never reports one.
-/

namespace TinyScript

/-! ### Scopes that are kept -/

/-- A variable is the same, and still read if it was. -/
structure ScopeVar.Kept (v w : ScopeVar) : Prop where
  var : w.var = v.var
  used : v.used → w.used

theorem ScopeVar.Kept.refl (v : ScopeVar) : v.Kept v := ⟨rfl, id⟩

theorem ScopeVar.Kept.trans {u v w : ScopeVar} (h : u.Kept v) (h' : v.Kept w) : u.Kept w :=
  ⟨h'.var.trans h.var, h'.used ∘ h.used⟩

namespace Scope

/-- A scope has the variables it had, and perhaps more after them. -/
structure Grown (s t : Scope) : Prop where
  kind : t.kind = s.kind
  result : t.result = s.result
  vars : ∀ {i : Nat} {v : ScopeVar}, s.vars[i]? = some v → ∃ w, t.vars[i]? = some w ∧ v.Kept w

/-- A scope has the variables it had, and no more. -/
structure Kept (s t : Scope) : Prop extends s.Grown t where
  size : t.vars.size = s.vars.size

variable {s t u : Scope}

theorem Grown.trans (h : s.Grown t) (h' : t.Grown u) : s.Grown u := by
  refine ⟨h'.kind.trans h.kind, h'.result.trans h.result, fun hv => ?_⟩
  obtain ⟨w, hw, hvw⟩ := h.vars hv
  obtain ⟨x, hx, hwx⟩ := h'.vars hw
  exact ⟨x, hx, hvw.trans hwx⟩

theorem Kept.refl (s : Scope) : s.Kept s :=
  ⟨⟨rfl, rfl, fun hv => ⟨_, hv, .refl _⟩⟩, rfl⟩

theorem Kept.trans (h : s.Kept t) (h' : t.Kept u) : s.Kept u :=
  ⟨h.toGrown.trans h'.toGrown, h'.size.trans h.size⟩

/-- Reading a variable only marks it. -/
theorem Kept.of_read? {name : String} {v : Var} (h : s.read? name = some (v, t)) : s.Kept t := by
  unfold Scope.read? at h
  split at h
  · cases h
  · next i _ =>
    simp only [Option.map_eq_some_iff, Prod.mk.injEq] at h
    obtain ⟨w, -, -, rfl⟩ := h
    refine ⟨⟨rfl, rfl, fun {j} x hx => ?_⟩, by simp⟩
    rw [Array.getElem?_modify, hx]
    split
    · exact ⟨_, rfl, rfl, fun _ => rfl⟩
    · exact ⟨x, rfl, .refl x⟩

theorem Grown.push (s : Scope) (v : ScopeVar) : s.Grown { s with vars := s.vars.push v } := by
  refine ⟨rfl, rfl, fun {i} x hx => ⟨x, ?_, .refl x⟩⟩
  have hlt : i < s.vars.size := (Array.getElem?_eq_some_iff.1 hx).1
  show (s.vars.push v)[i]? = some x
  rw [Array.getElem?_push, if_neg (Nat.ne_of_lt hlt), hx]

end Scope

namespace Scopes

/-- The open scopes are the same, with the same variables. -/
abbrev Kept (ss tt : Scopes) : Prop :=
  List.Forall₂ Scope.Kept ss tt

/-- The open scopes are the same. The innermost one may have more variables, and the others have the
same. -/
inductive Grown : Scopes → Scopes → Prop where
  | nil : Grown [] []
  | cons {s t : Scope} {ss tt : Scopes} (head : s.Grown t) (tail : Kept ss tt) : Grown (s :: ss) (t :: tt)

variable {ss tt uu : Scopes}

theorem Kept.refl (ss : Scopes) : Kept ss ss :=
  List.forall₂_same.2 fun s _ => .refl s

theorem Kept.trans (h : Kept ss tt) (h' : Kept tt uu) : Kept ss uu := by
  induction h generalizing uu with
  | nil => exact h'
  | cons hst _ ih =>
    cases h' with
    | cons htu h' => exact .cons (hst.trans htu) (ih h')

theorem Kept.grown (h : Kept ss tt) : Grown ss tt := by
  cases h with
  | nil => exact .nil
  | cons hst h => exact .cons hst.toGrown h

theorem Grown.refl (ss : Scopes) : Grown ss ss :=
  (Kept.refl ss).grown

theorem Grown.trans (h : Grown ss tt) (h' : Grown tt uu) : Grown ss uu := by
  cases h with
  | nil => exact h'
  | cons hst hss =>
    cases h' with
    | cons htu htt => exact .cons (hst.trans htu) (hss.trans htt)

/-- The scopes around the innermost one have the same variables. -/
theorem Grown.tail (h : Grown ss tt) : Grown ss.tail tt.tail := by
  cases h with
  | nil => exact .nil
  | cons _ h => exact h.grown

theorem Grown.drop (h : Grown ss tt) (n : Nat) : Grown (ss.drop n) (tt.drop n) := by
  induction n with
  | zero => exact h
  | succ n ih =>
    rw [← List.tail_drop, ← List.tail_drop]
    exact ih.tail

theorem Grown.length_eq (h : Grown ss tt) : tt.length = ss.length := by
  cases h with
  | nil => rfl
  | cons _ h => exact congrArg (· + 1) h.length_eq.symm

theorem Grown.declare (ss : Scopes) (v : Var) (used : Bool) : Grown ss (ss.declare v used) := by
  unfold Scopes.declare
  split
  · exact .refl ss
  · cases ss with
    | nil => exact .nil
    | cons s ss => exact .cons (.push s _) (Kept.refl ss)

theorem Kept.of_find? {name : String} {v : Var} (h : ss.find? name = some (v, tt)) : Kept ss tt := by
  induction ss generalizing tt with
  | nil => cases h
  | cons s ss ih =>
    unfold find? at h
    split at h
    · next hread =>
      cases h
      exact .cons (.of_read? hread) (Kept.refl ss)
    · simp only [Option.map_eq_some_iff, Prod.mk.injEq] at h
      obtain ⟨⟨w, ss'⟩, hfind, rfl, rfl⟩ := h
      exact .cons (.refl s) (ih hfind)

theorem Kept.of_read? {name : String} {v : Var} (h : ss.read? name = some (v, tt)) : Kept ss tt := by
  unfold read? at h
  split at h
  · cases h
  · exact .of_find? h

end Scopes

/-- Whether the problem is that a loop cannot run over its range. -/
def Problem.isRange : Problem → Bool
  | .rangeType _ | .rangeCount _ | .rangeArgumentType _ _ => true
  | _ => false

namespace Parsing

namespace State

/-- How many problems with the ranges of loops were reported. -/
def badRanges (s : State) : Nat :=
  s.problems.countP (·.problem.isRange)

theorem badRanges_report (s : State) (token : Token) {problem : Problem} (h : problem.isRange = false) :
    (s.report token problem).badRanges = s.badRanges := by
  simp [badRanges, report, h]

/-- No problem with the range of a loop is reported, and the open scopes have the same variables. -/
structure Quiet (s t : State) : Prop where
  badRanges : t.badRanges = s.badRanges
  scopes : Scopes.Kept s.scopes t.scopes

theorem Quiet.refl (s : State) : s.Quiet s := ⟨rfl, Scopes.Kept.refl _⟩

theorem Quiet.trans {s t u : State} (h : s.Quiet t) (h' : t.Quiet u) : s.Quiet u :=
  ⟨h'.badRanges.trans h.badRanges, h.scopes.trans h'.scopes⟩

/-- The relation allows for whatever a parser does that keeps the open scopes with their variables. -/
class AdmitsQuiet (R : State → State → Prop) : Prop extends IsPreorder State R where
  of_quiet {s t : State} : s.Quiet t → R s t

instance : AdmitsQuiet Quiet where
  refl := .refl
  trans _ _ _ := .trans
  of_quiet := id

theorem Moves.quiet {f : State → State} (hf : Moves f) (s : State) : s.Quiet (f s) := by
  obtain ⟨pos, spacing, h⟩ := hf s
  rw [h]
  exact ⟨rfl, Scopes.Kept.refl _⟩

end State

/-! ### Parsers by what they do to the state -/

/-- The parser takes every state to a related one. -/
def Steps (R : State → State → Prop) {α : Type} (m : Parse α) : Prop :=
  ∀ s : State, R s (m.run s).2

/-- The parser leaves the open scopes with their variables, wherever it starts and whatever it
reports. -/
abbrev Quiet {α : Type} (m : Parse α) : Prop :=
  Steps State.Quiet m

namespace Steps

variable {R : State → State → Prop} {α β γ : Type} {m : Parse α}

variable [IsPreorder State R]

theorem pure (a : α) : Steps R (pure a) := fun s => refl_of R s

theorem failure : Steps R (failure : Attempt α).run := fun s => refl_of R s

theorem bind {f : α → Parse β} (hm : Steps R m) (hf : ∀ a, Steps R (f a)) : Steps R (m >>= f) :=
  fun s => trans_of R (hm s) (hf (m.run s).1 (m.run s).2)

/-- Goes on where an attempt has a result. -/
theorem andTry {m : Attempt α} {f : α → Attempt β} (hm : Steps R m.run) (hf : ∀ a, Steps R (f a).run) :
    Steps R (m >>= f).run := by
  refine bind (f := fun r => match r with
    | some a => (f a).run
    | none => Pure.pure none) hm fun r => ?_
  cases r with
  | none => exact pure _
  | some a => exact hf a

theorem lift {f : α → Attempt β} (hm : Steps R m) (hf : ∀ a, Steps R (f a).run) :
    Steps R (liftM m >>= f : Attempt β).run :=
  bind (f := fun a => (f a).run) hm hf

theorem lifted (hm : Steps R m) : Steps R (liftM m : Attempt α).run :=
  bind (f := fun a => Pure.pure (some a)) hm fun _ => pure _

theorem get : Steps R (get : Parse State) := fun s => refl_of R s

/-- Goes on after a look at the state. -/
theorem state {f : State → Attempt β} (hf : ∀ s, Steps R (f s).run) :
    Steps R (MonadState.get >>= f).run :=
  bind (f := fun s => (f s).run) get hf

theorem look {f : State → α} : Steps R (return f (← MonadState.get)) := fun s => refl_of R s

omit [IsPreorder State R] in
theorem ite {c : Prop} [Decidable c] {m n : Parse α} (hm : Steps R m) (hn : Steps R n) :
    Steps R (if c then m else n) := by
  split
  · exact hm
  · exact hn

omit [IsPreorder State R] in
theorem tryIte {c : Prop} [Decidable c] {m n : Attempt α} (hm : Steps R m.run) (hn : Steps R n.run) :
    Steps R (if c then m else n).run := by
  split
  · exact hm
  · exact hn

/-- What follows is only reached if a condition does not hold. -/
theorem ifFail {c : Prop} [Decidable c] {fails : Attempt γ} {rest : Attempt β}
    (hfails : Steps R fails.run) (h : Steps R rest.run) :
    Steps R (if c then fails >>= fun _ => rest else rest).run :=
  tryIte (.andTry hfails fun _ => h) h

/-- What follows is only reached if a condition holds. -/
theorem unlessFail {c : Prop} [Decidable c] {fails : Attempt γ} {rest : Attempt β}
    (hfails : Steps R fails.run) (h : Steps R rest.run) :
    Steps R (if c then rest else fails >>= fun _ => rest).run :=
  tryIte h (.andTry hfails fun _ => h)

theorem forM {f : β → Parse PUnit} (hf : ∀ b, Steps R (f b)) (l : List β) : Steps R (l.forM f) := by
  induction l with
  | nil => exact pure _
  | cons b l ih => exact (hf b).bind fun _ => ih

theorem optionForM {f : β → Parse PUnit} (hf : ∀ b, Steps R (f b)) (o : Option β) : Steps R (o.forM f) := by
  cases o with
  | none => exact pure _
  | some b => exact hf b

theorem forIn {f : γ → PUnit → Attempt (ForInStep PUnit)} (hf : ∀ b, Steps R (f b ⟨⟩).run) (l : List γ) :
    Steps R (forIn l PUnit.unit f).run := by
  induction l with
  | nil => exact pure _
  | cons b l ih =>
    rw [List.forIn_cons]
    refine .andTry (hf b) fun r => ?_
    cases r with
    | done => exact pure _
    | yield => exact ih

end Steps

namespace Steps

variable {R : State → State → Prop} [State.AdmitsQuiet R] {α : Type}

theorem ofQuiet {m : Parse α} (hm : Quiet m) : Steps R m := fun s => State.AdmitsQuiet.of_quiet (hm s)

theorem move {f : State → State} (hf : State.Moves f) : Steps R (modify f) :=
  ofQuiet hf.quiet

theorem advance : Steps R advance := move State.moves_advance

theorem advanceOne : Steps R advanceOne := move State.moves_advanceOne

theorem nextLine : Steps R nextLine := move State.moves_nextLine

theorem skipBlank : Steps R skipBlank := move State.moves_skipBlank

section
variable {problem : Problem} (h : problem.isRange = false)
include h

theorem reportAt (token : Token) : Steps R (reportAt token problem) :=
  ofQuiet fun s => ⟨s.badRanges_report token h, Scopes.Kept.refl _⟩

theorem report : Steps R (report problem) :=
  ofQuiet fun s => ⟨s.badRanges_report s.cur h, Scopes.Kept.refl _⟩

theorem failAt (token : Token) : Steps R (failAt token problem : Attempt α).run :=
  .lift (reportAt h token) fun _ => .failure

theorem fail : Steps R (fail problem : Attempt α).run :=
  .lift (report h) fun _ => .failure

end

theorem expect (expected : TokenKind) : Steps R (expect expected) :=
  .bind .look fun _ => .ite (.pure _) (.bind (report rfl) fun _ => .pure _)

theorem expectLineEnd : Steps R expectLineEnd :=
  .bind .look fun _ => .ite (.pure _) (.bind .look fun _ => report rfl)

theorem require (expected : TokenKind) : Steps R (require expected).run :=
  .lift (expect expected) fun _ => .tryIte (.pure _) .failure

theorem withSpacing (spaced : Bool) {m : Attempt α} (hm : Steps R m.run) :
    Steps R (withSpacing spaced m).run :=
  .bind (move (State.moves_pushSpacing spaced)) fun _ => .bind hm fun _ =>
    .bind (move State.moves_popSpacing) fun _ => .pure _

theorem orNextLine {m : Attempt α} (hm : Steps R m.run) : Steps R (orNextLine m).run :=
  .bind hm fun _ => .ite (.bind nextLine fun _ => .pure _) (.pure _)

theorem readVar? (name : String) : Steps R (readVar? name) := by
  refine ofQuiet fun s => ?_
  rw [run_readVar?]
  cases hread : s.scopes.read? name with
  | none => exact .refl s
  | some r => exact ⟨rfl, Scopes.Kept.of_read? hread⟩

end Steps

/-! ### Expressions -/

theorem typeWithin_quiet (fuel : Nat) : Quiet (typeWithin fuel) := by
  induction fuel with
  | zero => exact .pure _
  | succ fuel ih =>
    have hcomposite (close : TokenKind) (f : Ty → Ty) : Quiet (do
        if (← kind) ≠ close then return .illegal
        advance
        let elem ← typeWithin fuel
        return if elem.kind = .illegal then .illegal else f elem) :=
      Steps.look.bind fun _ => .ite (.pure _) (Steps.advance.bind fun _ => ih.bind fun _ => .pure _)
    refine Steps.look.bind fun first => Steps.advance.bind fun _ => ?_
    split
    · exact .pure _
    · exact .pure _
    · exact .pure _
    · exact .pure _
    · exact hcomposite .rBracket .array
    · exact hcomposite .rCurly .map
    · exact .pure _

theorem type_quiet : Quiet type :=
  Steps.get.bind fun s => typeWithin_quiet s.fuel

variable {self : Nested}

theorem atListEnd_quiet : Quiet atListEnd := by
  refine Steps.look.bind fun k => ?_
  split
  · exact .pure _
  · exact .pure _
  · exact .pure _
  · exact .look

theorem layoutWithin_quiet (fuel : Nat) (done : Array LayoutItem) : Quiet (layoutWithin fuel done) := by
  induction fuel generalizing done with
  | zero => exact .pure _
  | succ fuel ih =>
    refine Steps.look.bind fun token => ?_
    split
    · exact Steps.advanceOne.bind fun _ => ih _
    · exact Steps.advanceOne.bind fun _ => (Steps.expect _).bind fun _ => Steps.advanceOne.bind fun _ => ih _
    · exact Steps.advanceOne.bind fun _ => ih _
    · exact .pure _

theorem layoutItems_quiet (done : Array LayoutItem) : Quiet (layoutItems done) :=
  Steps.get.bind fun _ => layoutWithin_quiet _ done

theorem reportArguments_quiet (name : String) (index : Nat) (params : List Var) (args : List Expr) :
    Quiet (reportArguments name index params args) := by
  induction params generalizing index args with
  | nil => exact .pure _
  | cons v params ih =>
    cases args with
    | nil => exact .pure _
    | cons e args =>
      unfold reportArguments
      exact .ite (ih _ _) ((Steps.reportAt rfl _).bind fun _ => ih _ _)

theorem checkArguments_quiet (signature : Signature) (args : List Expr) :
    Quiet (checkArguments signature args) := by
  unfold checkArguments
  split
  · next rest _ =>
    exact (Steps.forM (fun e => .ite (.pure _) (.reportAt rfl _)) _).bind fun _ => .pure _
  · dsimp only
    refine .ite ?_ ((reportArguments_quiet _ _ _ _).bind fun _ => .pure _)
    exact Steps.get.bind fun _ => (Steps.reportAt rfl _).bind fun _ => .pure _

theorem reportOperand_quiet : Quiet reportOperand := by
  refine Steps.get.bind fun s => ?_
  dsimp only
  split
  · exact .ite (.report rfl) (.ite (.reportAt rfl _) (.report rfl))
  · exact .report rfl

theorem numLiteral_quiet : Quiet numLiteral.run := by
  refine .lift .look fun token => .lift .advance fun _ => ?_
  split
  · exact .pure _
  · exact .failAt rfl _

theorem readVariable_quiet : Quiet readVariable.run := by
  refine .lift .look fun token => .lift .advance fun _ => .ifFail (.failAt rfl _) ?_
  refine .lift (.readVar? _) fun r => ?_
  split
  · exact .pure _
  · exact .lift .look fun _ => .tryIte (.failAt rfl _) (.failAt rfl _)

theorem requireTightDot_quiet : Quiet requireTightDot.run := by
  have hrest (s : State) : Quiet (if (s.tokenAt (s.pos + 1)).kind = .ws then
      fail (.blankAfter (Text.quote ".")) else pure PUnit.unit : Attempt PUnit).run :=
    .tryIte (.fail rfl) (.pure _)
  exact .state fun s => .ifFail (.fail rfl) (hrest s)

theorem field_quiet (left : Expr) : Quiet (field left).run := by
  refine .lift .look fun token => .andTry requireTightDot_quiet fun _ => .lift .advanceOne fun _ => ?_
  refine .unlessFail (.failAt rfl _) (.lift .look fun key => ?_)
  exact .unlessFail (.failAt rfl _) (.lift .advance fun _ => .pure _)

theorem typeAssertion_quiet (left : Expr) : Quiet (typeAssertion left).run := by
  refine .lift .look fun token => .andTry requireTightDot_quiet fun _ => .withSpacing _ ?_
  refine .lift .advance fun _ => .lift .advance fun _ => .lift type_quiet fun ty => ?_
  extract_lets typeProblem isAny finish rest
  have hrest (u : Unit) : Quiet (rest u).run := by
    refine .lift (.expect _) fun closed => ?_
    extract_lets judge afterClosed
    have hjudge (u : Unit) : Quiet (judge u).run := .unlessFail .failure (.pure _)
    have hafter (u : Unit) : Quiet (afterClosed u).run :=
      .tryIte (hjudge ()) (.lift (.reportAt rfl _) hjudge)
    exact .tryIte (.lift .advanceOne hafter) (hafter ())
  have hproblem (problem : Problem) (h : typeProblem = some problem) : problem.isRange = false := by
    dsimp only [typeProblem] at h
    split at h
    · cases h; rfl
    · split at h <;> cases h
      rfl
  cases hty : typeProblem with
  | none => exact hrest ()
  | some problem => exact .lift (.reportAt (hproblem problem hty) _) hrest

/-- What is wrong with the operands of an operator is not the range of a loop. -/
theorem isRange_of_operandProblem? {op : BinaryOp} {l r : Ty} {problem : Problem}
    (h : operandProblem? op l r = some problem) : problem.isRange = false := by
  unfold operandProblem? at h
  split at h
  · cases h; rfl
  · cases op <;> dsimp only at h <;> (try split at h) <;> cases h <;> rfl

section
variable (h : ∀ p, Quiet (self p).run)
include h

theorem spacedExpr_quiet : Quiet (spacedExpr self).run :=
  .withSpacing true (h .lowest)

theorem exprListWithin_quiet (fuel : Nat) (done : Array Expr) :
    Quiet (exprListWithin self fuel done).run := by
  induction fuel generalizing done with
  | zero => exact .pure _
  | succ fuel ih =>
    refine .lift atListEnd_quiet fun ended => .tryIte (.pure _) ?_
    exact .andTry (spacedExpr_quiet h) fun e => .lift .skipBlank fun _ => ih _

theorem exprList_quiet : Quiet (exprList self).run :=
  .state fun s => exprListWithin_quiet h s.fuel _

theorem call_quiet : Quiet (call self).run := by
  refine .lift .look fun token => .state fun s => ?_
  split
  · next signature _ =>
    refine .lift .advance fun _ => .andTry (exprList_quiet h) fun args => ?_
    exact .lift (checkArguments_quiet signature args) fun _ => .pure _
  · exact .failure

theorem topLevel_quiet : Quiet (topLevel self).run :=
  .lift .look fun _ => .lift .look fun _ =>
    .tryIte (.andTry (call_quiet h) fun _ => .pure _) (h .lowest)

theorem elementsWithin_quiet (fuel : Nat) (layout : Array LayoutItem) (elems : Array Expr) :
    Quiet (elementsWithin self fuel layout elems).run := by
  induction fuel generalizing layout elems with
  | zero => exact .pure _
  | succ fuel ih =>
    refine .lift .look fun k => ?_
    split
    · exact .pure _
    · exact .pure _
    · exact .andTry (spacedExpr_quiet h) fun e => .lift (layoutItems_quiet _) fun layout => ih _ _

theorem arrayLiteral_quiet : Quiet (arrayLiteral self).run := by
  refine .lift .look fun token => .lift .advance fun _ => .lift (layoutItems_quiet _) fun layout => ?_
  refine .state fun s => .andTry (elementsWithin_quiet h _ _ _) fun ⟨layout, elems⟩ => ?_
  exact .andTry (.require _) fun _ => .lift .advance fun _ => .tryIte (.pure _) (.pure _)

theorem pairsWithin_quiet (fuel : Nat) (layout : Array LayoutItem) (pairs : Array (String × Expr)) :
    Quiet (pairsWithin self fuel layout pairs).run := by
  induction fuel generalizing layout pairs with
  | zero => exact .pure _
  | succ fuel ih =>
    refine .lift .look fun token => ?_
    dsimp only
    split
    · exact .pure _
    · exact .pure _
    · refine .ifFail (.fail rfl) (.lift .advance fun _ => .andTry (.require _) fun _ => ?_)
      refine .lift .advance fun _ => .andTry (spacedExpr_quiet h) fun value => ?_
      exact .lift (layoutItems_quiet _) fun layout => ih _ _
    · exact .fail rfl

theorem mapLiteral_quiet : Quiet (mapLiteral self).run := by
  refine .withSpacing _ (.lift .look fun token => .lift .advance fun _ => ?_)
  refine .lift (layoutItems_quiet _) fun layout => .state fun s => ?_
  refine .andTry (pairsWithin_quiet h _ _ _) fun ⟨layout, pairs⟩ => .andTry (.require _) fun _ => ?_
  exact .lift .advanceOne fun _ => .tryIte (.pure _) (.pure _)

theorem unary_quiet (op : UnaryOp) : Quiet (unary self op).run := by
  refine .lift .look fun token => .lift .advance fun _ => .state fun s => .ifFail (.failAt rfl _) ?_
  exact .andTry (h .unary) fun e => .unlessFail (.failAt rfl _) (.pure _)

theorem grouped_quiet : Quiet (grouped self).run := by
  refine .withSpacing _ (.lift .look fun token => .lift .advance fun _ => ?_)
  refine .lift (topLevel_quiet h) fun inner? => .lift (.expect _) fun closed => ?_
  cases inner? with
  | none => exact .failure
  | some inner => exact .unlessFail .failure (.lift .advanceOne fun _ => .pure _)

theorem operand_quiet : Quiet (operand self).run := by
  refine .lift .look fun token => ?_
  split
  · exact readVariable_quiet
  · exact .lift .advance fun _ => .pure _
  · exact numLiteral_quiet
  · exact .lift .advance fun _ => .pure _
  · exact .lift .advance fun _ => .pure _
  · exact arrayLiteral_quiet h
  · exact mapLiteral_quiet h
  · exact unary_quiet h _
  · exact unary_quiet h _
  · exact grouped_quiet h
  · exact .lift reportOperand_quiet fun _ => .failure

theorem binary_quiet (op : BinaryOp) (left : Expr) : Quiet (binary self op left).run := by
  refine .lift .look fun token => .lift .advance fun _ => .andTry (h _) fun right => ?_
  dsimp only
  split
  · next problem hproblem =>
    exact .andTry (.failAt (isRange_of_operandProblem? hproblem) _) fun _ => .state fun _ => .pure _
  · exact .state fun _ => .pure _

theorem sliceRest_quiet (token : Token) (left : Expr) (start : Option Expr) :
    Quiet (sliceRest self token left start).run := by
  refine .unlessFail (.failAt rfl _) (.lift .look fun k => ?_)
  extract_lets rest
  have hrest (stop : Option Expr) : Quiet (rest stop).run := by
    refine .andTry (.require _) fun _ => .andTry (.forIn (fun b => ?_) _) fun _ => ?_
    · exact .unlessFail (.failAt rfl _) (.pure _)
    · exact .lift .advanceOne fun _ => .pure _
  refine .tryIte (hrest none) (.andTry ?_ hrest)
  rw [map_eq_pure_bind]
  exact .andTry (topLevel_quiet h) fun _ => .pure _

theorem indexOrSlice_quiet (left : Expr) (allowSlice : Bool) :
    Quiet (indexOrSlice self left allowSlice).run := by
  refine .withSpacing _ (.lift .look fun token => .state fun s => .ifFail (.fail rfl) ?_)
  refine .lift .advance fun _ => .unlessFail (.failAt rfl _) ?_
  have hslice (start : Option Expr) : Quiet (do
      advance
      return ← sliceRest self token left start : Attempt Expr).run :=
    .lift .advance fun _ => sliceRest_quiet h _ _ _
  refine .lift .look fun _ => .tryIte (hslice none) (.andTry (topLevel_quiet h) fun key => ?_)
  refine .lift .look fun _ => .tryIte (hslice (some key)) (.andTry (.require _) fun _ => ?_)
  exact .unlessFail (.failAt rfl _) (.lift .advanceOne fun _ => .pure _)

theorem afterOperand_quiet (left : Expr) : Quiet (afterOperand self left).run := by
  refine .state fun s => ?_
  split
  · exact binary_quiet h _ _
  · exact .tryIte (indexOrSlice_quiet h _ _) (.tryIte (typeAssertion_quiet _) (field_quiet _))

theorem operatorsWithin_quiet (p : Precedence) (fuel : Nat) (left : Expr) :
    Quiet (operatorsWithin self p fuel left).run := by
  induction fuel generalizing left with
  | zero => exact .pure _
  | succ fuel ih =>
    refine .lift .look fun ended => .lift .look fun k => .tryIte (.pure _) ?_
    exact .andTry (afterOperand_quiet h left) fun left => ih left

end

theorem exprWithin_quiet (fuel : Nat) (p : Precedence) : Quiet (exprWithin fuel p).run := by
  induction fuel generalizing p with
  | zero => exact .failure
  | succ fuel ih =>
    exact .andTry (operand_quiet ih) fun left => .state fun s => operatorsWithin_quiet ih p s.fuel left

theorem nested_quiet (p : Precedence) : Quiet (nested p).run :=
  .state fun s => exprWithin_quiet s.fuel p

theorem topLevelExpr_quiet : Quiet topLevelExpr.run :=
  topLevel_quiet nested_quiet

end Parsing

end TinyScript
