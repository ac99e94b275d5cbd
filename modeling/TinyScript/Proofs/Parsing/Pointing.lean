import TinyScript.Proofs.Binding.Reading
import TinyScript.Proofs.Parsing.Recovery

/-!
# The tokens that problems are reported at

A parser reports a problem at the current token, at one that it has passed, at that of an expression or a
variable it has read, or at the declaration of a variable that goes out of scope. `Points A m Q` says that
all of these are in `A` if the tokens to be read and the variables in scope are, whatever is wrong with the
source. What is in scope besides counts as read, so that it is not reported.
-/

namespace TinyScript

variable {A : Token → Prop}

/-! ### Variables that can be reported -/

/-- The variables that were not read are declared at tokens in `A`. -/
def Scope.Pointed (A : Token → Prop) (sc : Scope) : Prop :=
  ∀ v ∈ sc.vars, v.used = false → A v.var.token

theorem Scope.Kept.pointed {s t : Scope} (h : s.Kept t) (hs : s.Pointed A) : t.Pointed A := by
  intro w hw hunused
  obtain ⟨i, hi, rfl⟩ := Array.mem_iff_getElem.1 hw
  have hlt : i < s.vars.size := h.size ▸ hi
  obtain ⟨w, hw, hkept⟩ := h.vars (Array.getElem?_eq_getElem hlt)
  obtain rfl : t.vars[i] = w := Option.some.inj ((Array.getElem?_eq_getElem hi).symm.trans hw)
  rw [hkept.var]
  refine hs _ (Array.getElem_mem hlt) (Bool.eq_false_iff.2 fun hused => ?_)
  rw [hkept.used hused] at hunused
  cases hunused

namespace Scopes

/-- The variables in scope that were not read are declared at tokens in `A`. -/
def Pointed (A : Token → Prop) (ss : Scopes) : Prop :=
  ∀ sc ∈ ss, sc.Pointed A

variable {ss tt : Scopes}

theorem Kept.pointed (h : Kept ss tt) (hs : ss.Pointed A) : tt.Pointed A := by
  induction h with
  | nil => exact nofun
  | cons hst _ ih =>
    obtain ⟨hs, hss⟩ := List.forall_mem_cons.1 hs
    exact List.forall_mem_cons.2 ⟨hst.pointed hs, ih hss⟩

namespace Pointed

theorem enterWith (h : ss.Pointed A) (kind : ScopeKind) (result : Option Ty) :
    (ss.enterWith kind result).Pointed A :=
  List.forall_mem_cons.2 ⟨by simp [Scope.Pointed], h⟩

theorem tail (h : ss.Pointed A) : Scopes.Pointed A ss.tail :=
  fun sc hsc => h sc (List.mem_of_mem_tail hsc)

theorem declare (h : ss.Pointed A) {v : Var} {used : Bool} (hv : used = false → A v.token) :
    (ss.declare v used).Pointed A := by
  unfold Scopes.declare
  split
  · exact h
  · cases ss with
    | nil => exact nofun
    | cons sc ss =>
      obtain ⟨hsc, hss⟩ := List.forall_mem_cons.1 h
      refine List.forall_mem_cons.2 ⟨fun w hw hunused => ?_, hss⟩
      rcases Array.mem_push.1 hw with hw | rfl
      · exact hsc w hw hunused
      · exact hv hunused

/-- What is reported when a scope is closed. -/
theorem unused (h : ss.Pointed A) : ∀ v ∈ ss.unused, A v.token := by
  cases ss with
  | nil => exact nofun
  | cons sc ss =>
    intro v hv
    simp only [Scopes.unused, Scope.unused, List.mem_map, Array.mem_toList_iff, Array.mem_filter,
      Bool.not_eq_eq_eq_not, Bool.not_true] at hv
    obtain ⟨w, ⟨hw, hunused⟩, rfl⟩ := hv
    exact h sc List.mem_cons_self w hw hunused

end Pointed

end Scopes

namespace Parsing

namespace State

/-- All that problems are or will be reported at is in `A`. -/
structure Pointed (A : Token → Prop) (s : State) : Prop where
  tokens : ∀ t ∈ s.tokens, A t
  eof : A s.eof
  problems : ∀ d ∈ s.problems, A d.token
  scopes : s.scopes.Pointed A

/-- The same tokens are read, with the same functions known. -/
structure SameInput (s t : State) : Prop where
  tokens : t.tokens = s.tokens
  eof : t.eof = s.eof
  spacing : t.spacing = s.spacing
  funcs : t.funcs = s.funcs

variable {s t u : State}

theorem SameInput.refl (s : State) : s.SameInput s := ⟨rfl, rfl, rfl, rfl⟩

theorem SameInput.trans (h : s.SameInput t) (h' : t.SameInput u) : s.SameInput u :=
  ⟨h'.tokens.trans h.tokens, h'.eof.trans h.eof, h'.spacing.trans h.spacing, h'.funcs.trans h.funcs⟩

theorem sameInput_report (s : State) (token : Token) (problem : Problem) : s.SameInput (s.report token problem) :=
  ⟨rfl, rfl, rfl, rfl⟩

theorem Alike.sameInput (h : s.Alike t) : s.SameInput t :=
  ⟨(congrArg State.tokens h.site :), (congrArg State.eof h.site :), (congrArg State.spacing h.site :),
    (congrArg State.funcs h.site :)⟩

theorem Pointed.of_alike (hs : s.Pointed A) (h : s.Alike t) : t.Pointed A := by
  have hscopes : t.scopes = s.scopes := (congrArg State.scopes h.site :)
  refine ⟨h.sameInput.tokens ▸ hs.tokens, h.sameInput.eof ▸ hs.eof, ?_, hscopes ▸ hs.scopes⟩
  rw [h.problems]
  exact hs.problems

theorem alike_popSpacing (s : State) : ({ s with spacing := s.spacing.tail } : State).Alike s.popSpacing := by
  unfold popSpacing
  dsimp only
  split
  · exact alike_advance _
  · exact .refl _

/-- What is read in a construct leaves it open, until it is closed. -/
theorem SameInput.popSpacing {spaced : Bool} (h : (s.pushSpacing spaced).SameInput t) :
    s.SameInput t.popSpacing := by
  have htail : t.spacing.tail = s.spacing := by rw [h.spacing]; rfl
  have hclosed : s.SameInput { t with spacing := t.spacing.tail } := ⟨h.tokens, h.eof, htail, h.funcs⟩
  exact hclosed.trans t.alike_popSpacing.sameInput

theorem Pointed.popSpacing (hs : s.Pointed A) : s.popSpacing.Pointed A := by
  have hclosed : ({ s with spacing := s.spacing.tail } : State).Pointed A :=
    ⟨hs.tokens, hs.eof, hs.problems, hs.scopes⟩
  exact hclosed.of_alike s.alike_popSpacing

theorem Pointed.tokenAt (hs : s.Pointed A) (i : Nat) : A (s.tokenAt i) := by
  unfold State.tokenAt
  cases hi : s.tokens[i]? with
  | none => exact hs.eof
  | some t => exact hs.tokens t (Array.mem_of_getElem? hi)

theorem Pointed.cur (hs : s.Pointed A) : A s.cur :=
  hs.tokenAt s.pos

theorem Pointed.prev? (hs : s.Pointed A) {t : Token} (ht : s.prev? = some t) : A t := by
  unfold State.prev? at ht
  split at ht
  · cases ht
  · cases ht
    exact hs.tokenAt _

theorem Pointed.report (hs : s.Pointed A) {token : Token} (htoken : A token) (problem : Problem) :
    (s.report token problem).Pointed A := by
  refine ⟨hs.tokens, hs.eof, fun d hd => ?_, hs.scopes⟩
  rcases Array.mem_push.1 hd with hd | rfl
  · exact hs.problems d hd
  · exact htoken

end State

/-! ### Parsers that report at given tokens -/

section
variable {α β γ : Type} {Q Q' : α → Prop} {R : β → Prop}

/-- From a state the parser goes to one whose reports are at tokens in `A`, and its result is in `Q`. -/
structure PointsFrom (A : Token → Prop) (s : State) (m : Parse α) (Q : α → Prop) : Prop where
  input : s.SameInput (m.run s).2
  pointed : (m.run s).2.Pointed A
  result : Q (m.run s).1

theorem PointsFrom.of_run {s t : State} {m : Parse α} {a : α} (hrun : m.run s = (a, t)) (hinput : s.SameInput t)
    (ht : t.Pointed A) (ha : Q a) : PointsFrom A s m Q := by
  refine ⟨?_, ?_, ?_⟩ <;> rw [hrun]
  · exact hinput
  · exact ht
  · exact ha

theorem PointsFrom.weaken {s : State} {m : Parse α} (hm : PointsFrom A s m Q) (h : ∀ a, Q a → Q' a) :
    PointsFrom A s m Q' :=
  ⟨hm.input, hm.pointed, h _ hm.result⟩

theorem PointsFrom.bind {s : State} {m : Parse α} {f : α → Parse β} (hm : PointsFrom A s m Q)
    (hf : ∀ a t, Q a → s.SameInput t → t.Pointed A → PointsFrom A t (f a) R) : PointsFrom A s (m >>= f) R := by
  have hrest := hf _ _ hm.result hm.input hm.pointed
  exact ⟨hm.input.trans hrest.input, hrest.pointed, hrest.result⟩

/-- The parser reports problems at tokens in `A` only, as does what is read after it, and its result is in
`Q`. -/
def Points (A : Token → Prop) (m : Parse α) (Q : α → Prop) : Prop :=
  ∀ s : State, s.Pointed A → PointsFrom A s m Q

/-- The attempt reports problems at tokens in `A` only, and its result is in `Q` if there is one. -/
def Aims (A : Token → Prop) (m : Attempt α) (Q : α → Prop) : Prop :=
  Points A m.run fun r => ∀ a, r = some a → Q a

namespace Points
variable {m : Parse α}

theorem pure {a : α} (h : Q a) : Points A (pure a) Q :=
  fun s hs => ⟨.refl s, hs, h⟩

theorem bind {f : α → Parse β} (hm : Points A m Q) (hf : ∀ a, Q a → Points A (f a) R) :
    Points A (m >>= f) R :=
  fun s hs => (hm s hs).bind fun a t ha _ ht => hf a ha t ht

theorem weaken (hm : Points A m Q) (h : ∀ a, Q a → Q' a) : Points A m Q' :=
  fun s hs => (hm s hs).weaken h

/-- Goes on whatever the result is. -/
theorem andThen {f : α → Parse β} (hm : Points A m Q) (hf : ∀ a, Points A (f a) R) : Points A (m >>= f) R :=
  hm.bind fun a _ => hf a

/-- Goes on with an attempt. -/
theorem liftThen {f : α → Attempt β} {R : Option β → Prop} (hm : Points A m Q)
    (hf : ∀ a, Q a → Points A (f a).run R) : Points A (liftM m >>= f : Attempt β).run R :=
  bind (f := fun a => (f a).run) hm hf

theorem get : Points A get (State.Pointed A) :=
  fun s hs => ⟨.refl s, hs, hs⟩

theorem look {f : State → α} : Points A (return f (← MonadState.get)) fun _ => True :=
  get.bind fun _ _ => pure trivial

theorem cur : Points A cur A :=
  get.bind fun _ hs => pure hs.cur

theorem update {f : State → State} (hsame : ∀ s : State, s.SameInput (f s))
    (hf : ∀ s : State, s.Pointed A → (f s).Pointed A) : Points A (modify f) fun _ => True :=
  fun s hs => ⟨hsame s, hf s hs, trivial⟩

theorem move {f : State → State} (hf : ∀ s : State, s.Alike (f s)) :
    Points A (modify f) fun _ => True :=
  update (fun s => (hf s).sameInput) fun s hs => hs.of_alike (hf s)

theorem advance : Points A advance fun _ => True := move State.alike_advance

theorem advanceOne : Points A advanceOne fun _ => True := move State.alike_advanceOne

theorem nextLine : Points A nextLine fun _ => True := move State.alike_nextLine

theorem skipBlank : Points A skipBlank fun _ => True := move State.alike_skipBlank

theorem reportAt {token : Token} (h : A token) (problem : Problem) :
    Points A (reportAt token problem) fun _ => True :=
  update (fun s => s.sameInput_report _ problem) fun _ hs => hs.report h problem

theorem report (problem : Problem) : Points A (report problem) fun _ => True :=
  update (fun s => s.sameInput_report _ problem) fun _ hs => hs.report hs.cur problem

/-- A change of the open scopes. -/
theorem rescope {f : State → Scopes} (hf : ∀ s : State, s.Pointed A → (f s).Pointed A) :
    Points A (modify fun s => { s with scopes := f s }) fun _ => True :=
  update (fun _ => ⟨rfl, rfl, rfl, rfl⟩) fun s hs => ⟨hs.tokens, hs.eof, hs.problems, hf s hs⟩

theorem ite {c : Prop} [Decidable c] {m n : Parse α} (hm : Points A m Q) (hn : Points A n Q) :
    Points A (if c then m else n) Q := by
  split
  · exact hm
  · exact hn

theorem expect (expected : TokenKind) : Points A (expect expected) fun _ => True :=
  look.andThen fun _ => ite (pure trivial) ((report _).andThen fun _ => pure trivial)

theorem expectLineEnd : Points A expectLineEnd fun _ => True :=
  look.andThen fun _ => ite (pure trivial) (look.andThen fun _ => report _)

theorem forM {f : β → Parse PUnit} {l : List β} (hf : ∀ b ∈ l, Points A (f b) fun _ => True) :
    Points A (l.forM f) fun _ => True := by
  induction l with
  | nil => exact pure trivial
  | cons b l ih =>
    obtain ⟨hb, hl⟩ := List.forall_mem_cons.1 hf
    exact hb.andThen fun _ => ih hl

theorem optionForM {f : β → Parse PUnit} {o : Option β} (hf : ∀ b, o = some b → Points A (f b) fun _ => True) :
    Points A (o.forM f) fun _ => True := by
  cases o with
  | none => exact pure trivial
  | some b => exact hf b rfl

end Points

namespace Aims
variable {m : Attempt α}

theorem pure {a : α} (h : Q a) : Aims A (pure a) Q :=
  Points.pure fun _ ha => Option.some.inj ha ▸ h

theorem failure : Aims A (failure : Attempt α) Q :=
  Points.pure nofun

theorem bind {f : α → Attempt β} (hm : Aims A m Q) (hf : ∀ a, Q a → Aims A (f a) R) : Aims A (m >>= f) R := by
  unfold Aims
  rw [OptionT.run_bind]
  refine Points.bind hm fun r hr => ?_
  cases r with
  | none => exact Points.pure nofun
  | some a => exact hf a (hr a rfl)

theorem andThen {f : α → Attempt β} (hm : Aims A m Q) (hf : ∀ a, Aims A (f a) R) : Aims A (m >>= f) R :=
  hm.bind fun a _ => hf a

theorem lift {m : Parse α} (hm : Points A m Q) : Aims A (liftM m) Q :=
  Points.bind (f := fun a => Pure.pure (some a)) hm fun _ ha => Points.pure fun _ h => Option.some.inj h ▸ ha

/-- Goes on after a parser that always has a result. -/
theorem after {m : Parse α} {f : α → Attempt β} (hm : Points A m Q) (hf : ∀ a, Aims A (f a) R) :
    Aims A (liftM m >>= f) R :=
  (lift hm).andThen hf

theorem ite {c : Prop} [Decidable c] {m n : Attempt α} (hm : Aims A m Q) (hn : Aims A n Q) :
    Aims A (if c then m else n) Q := by
  split
  · exact hm
  · exact hn

theorem failAt {token : Token} (h : A token) (problem : Problem) : Aims A (failAt token problem : Attempt α) Q :=
  after (.reportAt h problem) fun _ => failure

theorem fail (problem : Problem) : Aims A (fail problem : Attempt α) Q :=
  after (.report problem) fun _ => failure

/-- What follows is only reached if a condition does not hold. -/
theorem ifFail {c : Prop} [Decidable c] {fails : Attempt γ} {rest : Attempt β}
    (hfails : Aims A fails fun _ => True) (h : Aims A rest R) :
    Aims A (if c then fails >>= fun _ => rest else rest) R :=
  ite (hfails.andThen fun _ => h) h

/-- What follows is only reached if a condition holds. -/
theorem unlessFail {c : Prop} [Decidable c] {fails : Attempt γ} {rest : Attempt β}
    (hfails : Aims A fails fun _ => True) (h : Aims A rest R) :
    Aims A (if c then rest else fails >>= fun _ => rest) R :=
  ite h (hfails.andThen fun _ => h)

theorem require (expected : TokenKind) : Aims A (require expected) fun _ => True :=
  after (.expect expected) fun _ => ite (pure trivial) failure

theorem withSpacing (spaced : Bool) (hm : Aims A m Q) : Aims A (withSpacing spaced m) Q := by
  intro s hs
  have hpush : (s.pushSpacing spaced).Pointed A := ⟨hs.tokens, hs.eof, hs.problems, hs.scopes⟩
  obtain ⟨hinput, ht, ha⟩ := hm _ hpush
  exact ⟨hinput.popSpacing, ht.popSpacing, ha⟩

theorem orNextLine (hm : Aims A m Q) : Aims A (orNextLine m) Q :=
  Points.bind hm fun _ hr => .ite (Points.nextLine.andThen fun _ => .pure hr) (.pure hr)

theorem forIn {f : γ → PUnit → Attempt (ForInStep PUnit)} {l : List γ}
    (hf : ∀ b ∈ l, Aims A (f b ⟨⟩) fun _ => True) : Aims A (forIn l PUnit.unit f) fun _ => True := by
  induction l with
  | nil => exact pure trivial
  | cons b l ih =>
    obtain ⟨hb, hl⟩ := List.forall_mem_cons.1 hf
    rw [List.forIn_cons]
    refine hb.andThen fun r => ?_
    cases r with
    | done => exact pure trivial
    | yield => exact ih hl

end Aims

theorem readVar?_points (name : String) : Points A (readVar? name) fun _ => True := by
  intro s hs
  have hrun := run_readVar? name s
  cases hread : s.scopes.read? name with
  | none =>
    rw [hread] at hrun
    exact .of_run hrun (.refl s) hs trivial
  | some r =>
    rw [hread] at hrun
    have hscopes := (Scopes.Kept.of_read? hread).pointed hs.scopes
    exact .of_run hrun ⟨rfl, rfl, rfl, rfl⟩ ⟨hs.tokens, hs.eof, hs.problems, hscopes⟩ trivial

end

/-! ### Expressions -/

theorem typeWithin_points (fuel : Nat) : Points A (typeWithin fuel) fun _ => True := by
  induction fuel with
  | zero => exact .pure trivial
  | succ fuel ih =>
    have hcomposite (close : TokenKind) (f : Ty → Ty) : Points A (do
        if (← kind) ≠ close then return .illegal
        advance
        let elem ← typeWithin fuel
        return if elem.kind = .illegal then .illegal else f elem) fun _ => True :=
      Points.look.andThen fun _ => .ite (.pure trivial) (Points.advance.andThen fun _ => ih.andThen fun _ =>
        .pure trivial)
    refine Points.look.andThen fun first => Points.advance.andThen fun _ => ?_
    split
    · exact .pure trivial
    · exact .pure trivial
    · exact .pure trivial
    · exact .pure trivial
    · exact hcomposite .rBracket .array
    · exact hcomposite .rCurly .map
    · exact .pure trivial

theorem type_points : Points A type fun _ => True :=
  Points.get.andThen fun s => typeWithin_points s.fuel

variable {self : Nested}

theorem atListEnd_points : Points A atListEnd fun _ => True := by
  refine Points.look.andThen fun k => ?_
  split
  · exact .pure trivial
  · exact .pure trivial
  · exact .pure trivial
  · exact .look

theorem layoutWithin_points (fuel : Nat) (done : Array LayoutItem) :
    Points A (layoutWithin fuel done) fun _ => True := by
  induction fuel generalizing done with
  | zero => exact .pure trivial
  | succ fuel ih =>
    refine Points.look.andThen fun token => ?_
    split
    · exact Points.advanceOne.andThen fun _ => ih _
    · exact Points.advanceOne.andThen fun _ => (Points.expect _).andThen fun _ =>
        Points.advanceOne.andThen fun _ => ih _
    · exact Points.advanceOne.andThen fun _ => ih _
    · exact .pure trivial

theorem layoutItems_points (done : Array LayoutItem) : Points A (layoutItems done) fun _ => True :=
  Points.get.andThen fun _ => layoutWithin_points _ done

theorem reportArguments_points (name : String) (index : Nat) (params : List Var) {args : List Expr}
    (hargs : ∀ e ∈ args, A e.token) : Points A (reportArguments name index params args) fun _ => True := by
  induction params generalizing index args with
  | nil => exact .pure trivial
  | cons v params ih =>
    cases args with
    | nil => exact .pure trivial
    | cons e args =>
      obtain ⟨he, hargs⟩ := List.forall_mem_cons.1 hargs
      unfold reportArguments
      exact .ite (ih _ hargs) ((Points.reportAt he _).andThen fun _ => ih _ hargs)

theorem checkArguments_points (signature : Signature) {args : List Expr} (hargs : ∀ e ∈ args, A e.token) :
    Points A (checkArguments signature args) fun _ => True := by
  unfold checkArguments
  split
  · next rest _ =>
    exact (Points.forM fun e he => .ite (.pure trivial) (.reportAt (hargs e he) _)).andThen fun _ =>
      .pure trivial
  · dsimp only
    refine .ite ?_ ((reportArguments_points _ _ _ hargs).andThen fun _ => .pure trivial)
    refine Points.get.bind fun s hs => (Points.reportAt ?_ _).andThen fun _ => .pure trivial
    cases hextra : args[signature.params.length]? with
    | none => exact hs.cur
    | some e => exact hargs e (List.mem_of_getElem? hextra)

theorem reportOperand_points : Points A reportOperand fun _ => True := by
  refine Points.get.bind fun s hs => ?_
  dsimp only
  split
  · next hprev => exact .ite (.report _) (.ite (.reportAt (hs.prev? hprev) _) (.report _))
  · exact .report _

theorem numLiteral_points : Aims A numLiteral fun e => A e.token := by
  refine (Aims.lift .cur).bind fun token htoken => .after .advance fun _ => ?_
  split
  · exact .pure htoken
  · exact .failAt htoken _

theorem readVariable_points : Aims A readVariable fun e => A e.token := by
  refine (Aims.lift .cur).bind fun token htoken => .after .advance fun _ => .ifFail (.failAt htoken _) ?_
  refine .after (readVar?_points _) fun r => ?_
  split
  · exact .pure htoken
  · exact .after .look fun _ => .ite (.failAt htoken _) (.failAt htoken _)

theorem requireTightDot_points : Aims A requireTightDot fun _ => True := by
  have hrest (s : State) : Aims A (if (s.tokenAt (s.pos + 1)).kind = .ws then
      fail (.blankAfter (Text.quote ".")) else pure PUnit.unit : Attempt PUnit) fun _ => True :=
    .ite (.fail _) (.pure trivial)
  exact .after .get fun s => .ifFail (.fail _) (hrest s)

theorem field_points (left : Expr) : Aims A (field left) fun e => A e.token := by
  refine (Aims.lift .cur).bind fun token htoken => requireTightDot_points.andThen fun _ =>
    .after .advanceOne fun _ => .unlessFail (.failAt htoken _) ?_
  refine .after .cur fun key => .unlessFail (.failAt htoken _) ?_
  exact .after .advance fun _ => .pure htoken

theorem typeAssertion_points (left : Expr) : Aims A (typeAssertion left) fun e => A e.token := by
  refine (Aims.lift .cur).bind fun token htoken => requireTightDot_points.andThen fun _ => .withSpacing _ ?_
  refine .after .advance fun _ => .after .advance fun _ => .after type_points fun ty => ?_
  extract_lets typeProblem isAny finish rest
  have hrest (u : Unit) : Aims A (rest u) fun e => A e.token := by
    refine .after (.expect _) fun closed => ?_
    extract_lets judge afterClosed
    have hjudge (u : Unit) : Aims A (judge u) fun e => A e.token := .unlessFail .failure (.pure htoken)
    have hafter (u : Unit) : Aims A (afterClosed u) fun e => A e.token :=
      .ite (hjudge ()) (.after (.reportAt htoken _) hjudge)
    exact .ite (.after .advanceOne hafter) (hafter ())
  cases typeProblem with
  | none => exact hrest ()
  | some problem => exact .after (.reportAt htoken _) hrest

section
variable (h : ∀ p, Aims A (self p) fun e => A e.token)
include h

theorem spacedExpr_points : Aims A (spacedExpr self) fun e => A e.token :=
  .withSpacing true (h .lowest)

theorem exprListWithin_points (fuel : Nat) {done : Array Expr} (hdone : ∀ e ∈ done, A e.token) :
    Aims A (exprListWithin self fuel done) fun es => ∀ e ∈ es, A e.token := by
  induction fuel generalizing done with
  | zero => exact .pure fun e he => hdone e (Array.mem_toList_iff.1 he)
  | succ fuel ih =>
    refine .after atListEnd_points fun ended =>
      .ite (.pure fun e he => hdone e (Array.mem_toList_iff.1 he)) ?_
    refine (spacedExpr_points h).bind fun e he => .after .skipBlank fun _ => ih ?_
    exact fun e' he' => (Array.mem_push.1 he').elim (hdone e') fun heq => heq ▸ he

theorem exprList_points : Aims A (exprList self) fun es => ∀ e ∈ es, A e.token :=
  .after .get fun s => exprListWithin_points h s.fuel (by simp)

theorem call_points : Aims A (call self) fun c => A c.token := by
  refine (Aims.lift .cur).bind fun token htoken => .after .get fun s => ?_
  split
  · next signature _ =>
    refine .after .advance fun _ => (exprList_points h).bind fun args hargs => ?_
    exact .after (checkArguments_points signature hargs) fun _ => .pure htoken
  · exact .failure

theorem topLevel_points : Aims A (topLevel self) fun e => A e.token :=
  .after .cur fun _ => .after .look fun _ => .ite ((call_points h).bind fun _ hc => .pure hc) (h .lowest)

theorem elementsWithin_points (fuel : Nat) (layout : Array LayoutItem) (elems : Array Expr) :
    Aims A (elementsWithin self fuel layout elems) fun _ => True := by
  induction fuel generalizing layout elems with
  | zero => exact .pure trivial
  | succ fuel ih =>
    refine .after .look fun k => ?_
    split
    · exact .pure trivial
    · exact .pure trivial
    · exact (spacedExpr_points h).andThen fun e => .after (layoutItems_points _) fun layout => ih _ _

theorem arrayLiteral_points : Aims A (arrayLiteral self) fun e => A e.token := by
  refine (Aims.lift .cur).bind fun token htoken => .after .advance fun _ => ?_
  refine .after (layoutItems_points _) fun _ => .after .get fun s => ?_
  refine (elementsWithin_points h _ _ _).andThen fun ⟨layout, elems⟩ => ?_
  exact (Aims.require _).andThen fun _ => .after .advance fun _ => .ite (.pure htoken) (.pure htoken)

theorem pairsWithin_points (fuel : Nat) (layout : Array LayoutItem) (pairs : Array (String × Expr)) :
    Aims A (pairsWithin self fuel layout pairs) fun _ => True := by
  induction fuel generalizing layout pairs with
  | zero => exact .pure trivial
  | succ fuel ih =>
    refine .after .cur fun token => ?_
    dsimp only
    split
    · exact .pure trivial
    · exact .pure trivial
    · refine .ifFail (.fail _) (.after .advance fun _ => (Aims.require _).andThen fun _ => ?_)
      refine .after .advance fun _ => (spacedExpr_points h).andThen fun value => ?_
      exact .after (layoutItems_points _) fun layout => ih _ _
    · exact .fail _

theorem mapLiteral_points : Aims A (mapLiteral self) fun e => A e.token := by
  refine .withSpacing _ ((Aims.lift .cur).bind fun token htoken => .after .advance fun _ => ?_)
  refine .after (layoutItems_points _) fun layout => .after .get fun s => ?_
  refine (pairsWithin_points h _ _ _).andThen fun ⟨layout, pairs⟩ => (Aims.require _).andThen fun _ => ?_
  exact .after .advanceOne fun _ => .ite (.pure htoken) (.pure htoken)

theorem unary_points (op : UnaryOp) : Aims A (unary self op) fun e => A e.token := by
  refine (Aims.lift .cur).bind fun token htoken => .after .advance fun _ => .after .get fun s => ?_
  refine .ifFail (.failAt htoken _) ((h .unary).andThen fun e => ?_)
  exact .unlessFail (.failAt htoken _) (.pure htoken)

theorem grouped_points : Aims A (grouped self) fun e => A e.token := by
  refine .withSpacing _ ((Aims.lift .cur).bind fun token htoken => .after .advance fun _ => ?_)
  refine .after (topLevel_points h) fun inner? => .after (.expect _) fun closed => ?_
  cases inner? with
  | none => exact .failure
  | some inner => exact .unlessFail .failure (.after .advanceOne fun _ => .pure htoken)

theorem operand_points : Aims A (operand self) fun e => A e.token := by
  refine (Aims.lift .cur).bind fun token htoken => ?_
  split
  · exact readVariable_points
  · exact .after .advance fun _ => .pure htoken
  · exact numLiteral_points
  · exact .after .advance fun _ => .pure htoken
  · exact .after .advance fun _ => .pure htoken
  · exact arrayLiteral_points h
  · exact mapLiteral_points h
  · exact unary_points h _
  · exact unary_points h _
  · exact grouped_points h
  · exact .after reportOperand_points fun _ => .failure

theorem binary_points (op : BinaryOp) (left : Expr) : Aims A (binary self op left) fun e => A e.token := by
  refine (Aims.lift .cur).bind fun token htoken => .after .advance fun _ => (h _).andThen fun right => ?_
  dsimp only
  split
  · exact (Aims.failAt (Q := fun _ => True) htoken _).andThen fun _ => .after .get fun _ => .pure htoken
  · exact .after .get fun _ => .pure htoken

theorem sliceRest_points {token : Token} (htoken : A token) (left : Expr) {start : Option Expr}
    (hstart : ∀ e, start = some e → A e.token) : Aims A (sliceRest self token left start) fun e => A e.token := by
  refine .unlessFail (.failAt htoken _) (.after .look fun k => ?_)
  extract_lets rest
  have hrest (stop : Option Expr) (hstop : ∀ e, stop = some e → A e.token) :
      Aims A (rest stop) fun e => A e.token := by
    have hbounds : ∀ b ∈ start.toList ++ stop.toList, A b.token := by
      intro b hb
      rcases List.mem_append.1 hb with hb | hb
      · exact hstart b (Option.mem_toList.1 hb)
      · exact hstop b (Option.mem_toList.1 hb)
    refine (Aims.require _).andThen fun _ => (Aims.forIn fun b hb => ?_).andThen fun _ => ?_
    · exact .unlessFail (.failAt (hbounds b hb) _) (.pure trivial)
    · exact .after .advanceOne fun _ => .pure htoken
  refine .ite (hrest none nofun) ?_
  rw [map_eq_pure_bind]
  have hsome : Aims A (topLevel self >>= fun e => pure (some e)) fun stop => ∀ e, stop = some e → A e.token :=
    (topLevel_points h).bind fun e he => .pure fun _ heq => Option.some.inj heq ▸ he
  exact hsome.bind hrest

theorem indexOrSlice_points (left : Expr) (allowSlice : Bool) :
    Aims A (indexOrSlice self left allowSlice) fun e => A e.token := by
  refine .withSpacing _ ((Aims.lift .cur).bind fun token htoken => .after .get fun s => .ifFail (.fail _) ?_)
  refine .after .advance fun _ => .unlessFail (.failAt htoken _) ?_
  have hslice (start : Option Expr) (hstart : ∀ e, start = some e → A e.token) : Aims A (do
      advance
      return ← sliceRest self token left start : Attempt Expr) fun e => A e.token :=
    .after .advance fun _ => sliceRest_points h htoken _ hstart
  refine .after .look fun _ => .ite (hslice none nofun) ((topLevel_points h).bind fun key hkey => ?_)
  refine .after .look fun _ => .ite (hslice (some key) fun _ heq => Option.some.inj heq ▸ hkey) ?_
  refine (Aims.require _).andThen fun _ => ?_
  exact .unlessFail (.failAt htoken _) (.after .advanceOne fun _ => .pure htoken)

theorem afterOperand_points (left : Expr) : Aims A (afterOperand self left) fun e => A e.token := by
  refine .after .get fun s => ?_
  split
  · exact binary_points h _ _
  · exact .ite (indexOrSlice_points h _ _) (.ite (typeAssertion_points _) (field_points _))

theorem operatorsWithin_points (p : Precedence) (fuel : Nat) {left : Expr} (hleft : A left.token) :
    Aims A (operatorsWithin self p fuel left) fun e => A e.token := by
  induction fuel generalizing left with
  | zero => exact .pure hleft
  | succ fuel ih =>
    refine .after .look fun ended => .after .look fun k => .ite (.pure hleft) ?_
    exact (afterOperand_points h left).bind fun left hleft => ih hleft

end

theorem exprWithin_points (fuel : Nat) (p : Precedence) : Aims A (exprWithin fuel p) fun e => A e.token := by
  induction fuel generalizing p with
  | zero => exact .failure
  | succ fuel ih =>
    exact (operand_points ih).bind fun left hleft => .after .get fun s => operatorsWithin_points ih p s.fuel hleft

theorem nested_points (p : Precedence) : Aims A (nested p) fun e => A e.token :=
  .after .get fun s => exprWithin_points s.fuel p

theorem topLevelExpr_points : Aims A topLevelExpr fun e => A e.token :=
  topLevel_points nested_points

end Parsing

end TinyScript
