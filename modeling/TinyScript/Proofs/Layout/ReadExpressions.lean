import TinyScript.Proofs.Layout.Expressions
import TinyScript.Proofs.Parsing.ReportPlaces
import TinyScript.Proofs.Parsing.Spelling

/-!
# Expressions that are read are neat

The names and comments of a source can be seen (`Token.Legible`), so every expression that is read from it
is neat, with its literals, whose elements are counted by the items of their layout.
-/

namespace TinyScript

/-! ### Tokens -/

theorem Text.visible_trim {text : String} (hline : '\n' ∉ text.toList)
    (h : ∃ c ∈ text.toList, isBlank c = false) : Visible (trim text) := by
  obtain ⟨c, hc, hblank⟩ := h
  refine ⟨?_, ?_⟩ <;> rw [trim, String.toList_ofList, trimWhere]
  · intro hnil
    have hall := List.dropWhile_eq_nil_iff.1 (List.reverse_eq_nil_iff.1 hnil)
    rw [← List.takeWhile_append_dropWhile (p := isBlank) (l := text.toList)] at hc
    rcases List.mem_append.1 hc with hc | hc
    · rw [List.mem_takeWhile_imp hc] at hblank
      cases hblank
    · rw [hall c (List.mem_reverse.2 hc)] at hblank
      cases hblank
  · intro hmem
    have hrest := (List.dropWhile_suffix _).mem (List.mem_reverse.1 hmem)
    exact hline ((List.dropWhile_suffix _).mem (List.mem_reverse.1 hrest))

namespace Lexeme

/-- A name and a comment can be seen. -/
structure Legible (kind : TokenKind) (literal : String) : Prop where
  name : kind = .ident → Visible literal
  comment : kind = .comment → Visible (Text.trim literal)

theorem Legible.of_kind {kind : TokenKind} {literal : String} (h : (kind == .ident || kind == .comment) = false) :
    Legible kind literal := by
  constructor <;> rintro rfl <;> cases h

variable {c : Char} {cs : List Char}

theorem legible_either {second : Char} {long short : TokenKind} (hlong : Legible long "")
    (hshort : Legible short "") : Legible (either cs second long short).kind (either cs second long short).literal := by
  unfold either
  split
  · exact hlong
  · exact hshort

theorem newline_not_mem_run {kind : TokenKind} {p : Char → Bool} (hc : c ≠ '\n') (hp : p '\n' = false) :
    '\n' ∉ (run kind c cs p).literal.toList := by
  rw [run, String.toList_ofList]
  intro hmem
  rcases List.mem_cons.1 hmem with heq | hmem
  · exact hc heq.symm
  · rw [List.mem_takeWhile_imp hmem] at hp
    cases hp

theorem legible_ofWord (hc : c ≠ '\n') : Legible (ofWord c cs).kind (ofWord c cs).literal := by
  have hne := kind_ne_comment_ofWord c cs
  refine ⟨fun hk => ?_, fun hk => absurd hk hne⟩
  have hline : '\n' ∉ (run .ident c cs Text.isIdentContinue).literal.toList :=
    newline_not_mem_run hc (by decide +kernel)
  unfold ofWord at hk ⊢
  dsimp only at hk ⊢
  split at hk
  · next keyword hkeyword =>
    unfold TokenKind.ofKeyword? at hkeyword
    split at hkeyword <;> cases hkeyword <;> cases hk
  · refine ⟨?_, hline⟩
    rw [run, String.toList_ofList]
    exact List.cons_ne_nil _ _

theorem legible_ofString : Legible (ofString cs).kind (ofString cs).literal := by
  unfold ofString
  dsimp only
  split
  · split <;> exact .of_kind rfl
  · exact .of_kind rfl

theorem legible_next (c : Char) (cs : List Char) : Legible (next c cs).kind (next c cs).literal := by
  unfold next
  split
  case h_3 | h_6 | h_10 | h_11 | h_12 =>
    exact legible_either (.of_kind rfl) (.of_kind rfl)
  case h_7 =>
    split
    · have hline : '\n' ∉ (run .comment '/' cs (· != '\n')).literal.toList := newline_not_mem_run (by decide) rfl
      refine ⟨fun h => (by cases h), fun _ => Text.visible_trim hline ⟨'/', ?_, by decide⟩⟩
      rw [run, String.toList_ofList]
      exact List.mem_cons_self
    · exact .of_kind rfl
  case h_20 => split <;> exact .of_kind rfl
  case h_21 => exact legible_ofString
  case h_22 =>
    split
    · next hstart =>
      refine legible_ofWord ?_
      rintro rfl
      exact absurd hstart (by decide +kernel)
    split
    · exact .of_kind rfl
    · exact .of_kind rfl
  all_goals exact .of_kind rfl

end Lexeme

namespace Token

/-- A name and a comment can be seen. -/
def Legible (t : Token) : Prop :=
  Lexeme.Legible t.kind t.literal

theorem Cut.legible {pos : Position} {text : List Char} {tokens : List Token} (h : Cut pos text tokens) :
    ∀ t ∈ tokens, t.Legible := by
  induction h with
  | eof pos => exact List.forall_mem_singleton.2 (.of_kind rfl)
  | @token pos c more rest kind literal tokens hnext _ ih =>
    refine List.forall_mem_cons.2 ⟨?_, ih⟩
    have hlegible := Lexeme.legible_next c (more ++ rest)
    rw [hnext] at hlegible
    exact hlegible

theorem scan_legible (source : String) : ∀ t ∈ scan source, t.Legible :=
  fun t ht => (scan_cut source).legible t (Array.mem_toList_iff.2 ht)

end Token

/-- The expression is neat, and stands at a token whose name can be seen. -/
structure Expr.Legible (e : Expr) : Prop where
  token : e.token.Legible
  neat : e.Neat

namespace Parsing
open Layout

variable {A : Token → Prop} {self : Nested}

/-- An attempt that goes on by the state. -/
theorem Aims.here {α β : Type} {Q : β → Prop} {g : State → α} {f : α → Attempt β}
    (hf : ∀ s : State, s.Pointed A → PointsFrom A s (f (g s)).run fun r => ∀ b, r = some b → Q b) :
    Aims A (liftM (return g (← get) : Parse α) >>= f) Q :=
  fun s hs => .peek (hf s hs)

/-- Goes on after an attempt from a state that is known. -/
theorem PointsFrom.tryBind {α β : Type} {Q : α → Prop} {R : β → Prop} {s : State} {m : Attempt α}
    {f : α → Attempt β} (hm : PointsFrom A s m.run fun r => ∀ a, r = some a → Q a)
    (hf : ∀ a, Q a → Aims A (f a) R) : PointsFrom A s (m >>= f).run fun r => ∀ b, r = some b → R b := by
  rw [OptionT.run_bind]
  refine hm.bind fun r t hr _ ht => ?_
  cases r with
  | none => exact Points.pure nofun t ht
  | some a => exact hf a (hr a rfl) t ht

/-- What follows is only reached if a condition holds. -/
theorem Aims.unlessFails {α β : Type} {Q : β → Prop} {c : Prop} [Decidable c] {fails : Attempt α}
    {rest : Attempt β} (hfails : Aims A fails fun _ => False) (h : c → Aims A rest Q) :
    Aims A (if c then rest else fails >>= fun _ => rest) Q := by
  split
  · next hc => exact h hc
  · exact hfails.bind fun _ hfalse => hfalse.elim

theorem readVar?_named (name : String) : Points A (readVar? name) fun r => ∀ v, r = some v → v.name = name := by
  intro s hs
  have hrun := run_readVar? name s
  cases hread : s.scopes.read? name with
  | none =>
    rw [hread] at hrun
    exact .of_run hrun (.refl s) hs nofun
  | some r =>
    rw [hread] at hrun
    obtain ⟨v, scopes⟩ := r
    have hscopes := (Scopes.Kept.of_read? hread).pointed hs.scopes
    refine .of_run hrun ⟨rfl, rfl, rfl, rfl⟩ ⟨hs.tokens, hs.eof, hs.problems, hscopes⟩ ?_
    rintro _ ⟨⟩
    exact (Scopes.of_read? hread).2.1

/-! ### The layout of literals -/

theorem layoutWithin_fits (fuel : Nat) {done : Array LayoutItem} {count : Nat}
    (hdone : Fits done.toList count) :
    Points Token.Legible (layoutWithin fuel done) fun layout => Fits layout.toList count := by
  induction fuel generalizing done with
  | zero => exact .pure hdone
  | succ fuel ih =>
    refine Points.cur.bind fun token htoken => ?_
    split
    · exact Points.advanceOne.andThen fun _ => ih (hdone.push nofun nofun)
    · next hk =>
      refine Points.advanceOne.andThen fun _ => (Points.expect _).andThen fun _ =>
        Points.advanceOne.andThen fun _ => ih (hdone.push nofun ?_)
      rintro _ ⟨⟩
      exact htoken.comment hk
    · exact Points.advanceOne.andThen fun _ => ih hdone
    · exact .pure hdone

theorem layoutItems_fits {done : Array LayoutItem} {count : Nat} (hdone : Fits done.toList count) :
    Points Token.Legible (layoutItems done) fun layout => Fits layout.toList count :=
  Points.get.andThen fun _ => layoutWithin_fits _ hdone

/-! ### Expressions -/

theorem numLiteral_legible : Aims Token.Legible numLiteral Expr.Legible := by
  refine (Aims.lift .cur).bind fun token htoken => .after .advance fun _ => ?_
  split
  · exact .pure ⟨htoken, .num _⟩
  · exact .failAt htoken _

/-- A variable is read at a name. -/
theorem readVariable_legible {s : State} (hs : s.Pointed Token.Legible) (hk : s.cur.kind = .ident) :
    PointsFrom Token.Legible s readVariable.run fun r => ∀ e, r = some e → e.Legible := by
  have htoken := hs.cur
  have hname := htoken.name hk
  refine .peek (Aims.after .advance (fun _ => .ifFail (.failAt htoken _) ?_) s hs)
  refine (Aims.lift (readVar?_named _)).bind fun r hr => ?_
  cases r with
  | some v =>
    refine .pure ⟨htoken, .var ?_⟩
    rw [hr v rfl]
    exact hname
  | none => exact .after .look fun _ => .ite (.failAt htoken _) (.failAt htoken _)

/-- A field is read if there is a name after the dot. -/
theorem field_legible {left : Expr} (hleft : left.Neat) : Aims Token.Legible (field left) Expr.Legible := by
  refine (Aims.lift .cur).bind fun token htoken => requireTightDot_points.andThen fun _ =>
    .after .advanceOne fun _ => .unlessFail (.failAt htoken _) ?_
  refine (Aims.lift .cur).bind fun key hkey => .unlessFails (.failAt htoken _) fun hk => ?_
  exact .after .advance fun _ => .pure ⟨htoken, hleft.dot (hkey.name hk)⟩

theorem typeAssertion_legible {left : Expr} (hleft : left.Neat) :
    Aims Token.Legible (typeAssertion left) Expr.Legible := by
  refine (Aims.lift .cur).bind fun token htoken => requireTightDot_points.andThen fun _ => .withSpacing _ ?_
  refine .after .advance fun _ => .after .advance fun _ => .after type_points fun ty => ?_
  extract_lets typeProblem isAny finish rest
  have hrest (u : Unit) : Aims Token.Legible (rest u) Expr.Legible := by
    refine .after (.expect _) fun closed => ?_
    extract_lets judge afterClosed
    have hjudge (u : Unit) : Aims Token.Legible (judge u) Expr.Legible :=
      .unlessFail .failure (.pure ⟨htoken, hleft.assert⟩)
    have hafter (u : Unit) : Aims Token.Legible (afterClosed u) Expr.Legible :=
      .ite (hjudge ()) (.after (.reportAt htoken _) hjudge)
    exact .ite (.after .advanceOne hafter) (hafter ())
  cases typeProblem with
  | none => exact hrest ()
  | some problem => exact .after (.reportAt htoken _) hrest

/-- Arguments that are fitted to their parameters stay neat. -/
theorem checkArguments_neat (signature : Signature) {args : List Expr} (hargs : ∀ e ∈ args, e.Legible) :
    Points Token.Legible (checkArguments signature args) fun es => ∀ e ∈ es, e.Neat := by
  unfold checkArguments
  split
  · next rest _ =>
    refine (Points.forM fun e he => .ite (.pure trivial) (.reportAt (hargs e he).token _)).andThen fun _ =>
      .pure fun e he => ?_
    obtain ⟨arg, harg, rfl⟩ := List.mem_map.1 he
    exact (hargs arg harg).neat.wrap _
  · dsimp only
    refine .ite ?_ ((reportArguments_points _ _ _ fun e he => (hargs e he).token).andThen fun _ =>
      .pure fun e he => ?_)
    · refine Points.get.bind fun s hs => (Points.reportAt ?_ _).andThen fun _ => .pure fun e he => (hargs e he).neat
      cases hextra : args[signature.params.length]? with
      | none => exact hs.cur
      | some e => exact (hargs e (List.mem_of_getElem? hextra)).token
    · obtain ⟨i, hi, rfl⟩ := List.mem_iff_getElem.1 he
      rw [List.getElem_zipWith]
      exact (hargs _ (List.getElem_mem _)).neat.wrap _

/-- A call that is read at a name. -/
structure Call.Legible (c : Call) : Prop where
  token : c.token.Legible
  name : Visible c.name
  args : ∀ e ∈ c.args, e.Neat

section
variable (h : ∀ p, Aims Token.Legible (self p) Expr.Legible)
include h

theorem spacedExpr_legible : Aims Token.Legible (spacedExpr self) Expr.Legible :=
  .withSpacing true (h .lowest)

theorem exprListWithin_legible (fuel : Nat) {done : Array Expr} (hdone : ∀ e ∈ done, e.Legible) :
    Aims Token.Legible (exprListWithin self fuel done) fun es => ∀ e ∈ es, e.Legible := by
  induction fuel generalizing done with
  | zero => exact .pure fun e he => hdone e (Array.mem_toList_iff.1 he)
  | succ fuel ih =>
    refine .after atListEnd_points fun ended =>
      .ite (.pure fun e he => hdone e (Array.mem_toList_iff.1 he)) ?_
    refine (spacedExpr_legible h).bind fun e he => .after .skipBlank fun _ => ih ?_
    exact fun e' he' => (Array.mem_push.1 he').elim (hdone e') fun heq => heq ▸ he

theorem exprList_legible : Aims Token.Legible (exprList self) fun es => ∀ e ∈ es, e.Legible :=
  .after .get fun s => exprListWithin_legible h s.fuel (by simp)

theorem call_legible {s : State} (hs : s.Pointed Token.Legible) (hk : s.cur.kind = .ident) :
    PointsFrom Token.Legible s (call self).run fun r => ∀ c, r = some c → c.Legible := by
  have htoken := hs.cur
  have hrest (signature : Signature) : Aims Token.Legible (do
      advance
      let args ← exprList self
      let args ← checkArguments signature args
      return (⟨s.cur, s.cur.literal, args, signature.result⟩ : Call)) Call.Legible := by
    refine .after .advance fun _ => (exprList_legible h).bind fun args hargs => ?_
    exact (Aims.lift (checkArguments_neat signature hargs)).bind fun args hargs =>
      .pure ⟨htoken, htoken.name hk, hargs⟩
  refine .peek (.peek (g := id) ?_)
  dsimp only [id]
  split
  · exact hrest _ s hs
  · exact Aims.failure s hs

theorem topLevel_legible : Aims Token.Legible (topLevel self) Expr.Legible := by
  refine .here fun s hs => .peek (g := fun t => t.isFunc s.cur.literal) ?_
  split
  · next hcall =>
    have hk : s.cur.kind = .ident := by simp at hcall; exact hcall.1
    refine (call_legible h hs hk).tryBind fun c hc => .pure ⟨hc.token, ?_⟩
    exact .call hc.name hc.args
  · exact h .lowest s hs

/-- Each element that is read is an item of the layout. -/
theorem elementsWithin_legible (fuel : Nat) {layout : Array LayoutItem} {elems : Array Expr}
    (hlayout : Fits layout.toList elems.size) (helems : ∀ e ∈ elems, e.Legible) :
    Aims Token.Legible (elementsWithin self fuel layout elems) fun r =>
      Fits r.1 r.2.length ∧ ∀ e ∈ r.2, e.Legible := by
  have hdone : Fits layout.toList elems.toList.length ∧ ∀ e ∈ elems.toList, e.Legible :=
    ⟨hlayout, fun e he => helems e (Array.mem_toList_iff.1 he)⟩
  induction fuel generalizing layout elems with
  | zero => exact .pure hdone
  | succ fuel ih =>
    refine .after .look fun k => ?_
    split
    · exact .pure hdone
    · exact .pure hdone
    · refine (spacedExpr_legible h).bind fun e he => (Aims.lift (layoutItems_fits hlayout.pushElement)).bind
        fun layout hlayout => ?_
      have hfits : Fits layout.toList (elems.push e).size := by
        rw [Array.size_push]
        exact hlayout
      have hpushed : ∀ e' ∈ elems.push e, e'.Legible :=
        fun e' he' => (Array.mem_push.1 he').elim (helems e') fun heq => heq ▸ he
      exact ih hfits hpushed ⟨hfits, fun e he => hpushed e (Array.mem_toList_iff.1 he)⟩

theorem arrayLiteral_legible : Aims Token.Legible (arrayLiteral self) Expr.Legible := by
  refine (Aims.lift .cur).bind fun token htoken => .after .advance fun _ => ?_
  refine (Aims.lift (layoutItems_fits .nil)).bind fun layout hlayout => .after .get fun s => ?_
  refine (elementsWithin_legible h _ hlayout (by simp)).bind fun ⟨layout, elems⟩ ⟨hlayout, helems⟩ => ?_
  refine (Aims.require _).andThen fun _ => .after .advance fun _ => ?_
  dsimp only
  split
  · next hempty =>
    obtain rfl := List.isEmpty_iff.1 hempty
    exact .pure ⟨htoken, .array hlayout (by simp)⟩
  · refine .pure ⟨htoken, .array (by rwa [List.length_map]) fun e he => ?_⟩
    obtain ⟨elem, helem, rfl⟩ := List.mem_map.1 he
    exact (helems elem helem).neat.wrap _

theorem pairsWithin_legible (fuel : Nat) {layout : Array LayoutItem} {pairs : Array (String × Expr)}
    (hlayout : Fits layout.toList pairs.size) (hpairs : ∀ p ∈ pairs, Visible p.1 ∧ p.2.Neat) :
    Aims Token.Legible (pairsWithin self fuel layout pairs) fun r =>
      Fits r.1 r.2.length ∧ ∀ p ∈ r.2, Visible p.1 ∧ p.2.Neat := by
  have hdone : Fits layout.toList pairs.toList.length ∧ ∀ p ∈ pairs.toList, Visible p.1 ∧ p.2.Neat :=
    ⟨hlayout, fun p hp => hpairs p (Array.mem_toList_iff.1 hp)⟩
  induction fuel generalizing layout pairs with
  | zero => exact .pure hdone
  | succ fuel ih =>
    refine (Aims.lift .cur).bind fun token htoken => ?_
    dsimp only
    split
    · exact .pure hdone
    · exact .pure hdone
    · next hk =>
      refine .ifFail (.fail _) (.after .advance fun _ => (Aims.require _).andThen fun _ => ?_)
      refine .after .advance fun _ => (spacedExpr_legible h).bind fun value hvalue => ?_
      refine (Aims.lift (layoutItems_fits hlayout.pushElement)).bind fun layout hlayout => ?_
      have hfits : Fits layout.toList (pairs.push (token.literal, value)).size := by
        rw [Array.size_push]
        exact hlayout
      have hpushed : ∀ p ∈ pairs.push (token.literal, value), Visible p.1 ∧ p.2.Neat := by
        intro p hp
        rcases Array.mem_push.1 hp with hp | rfl
        · exact hpairs p hp
        · exact ⟨htoken.name hk, hvalue.neat⟩
      exact ih hfits hpushed ⟨hfits, fun p hp => hpushed p (Array.mem_toList_iff.1 hp)⟩
    · exact .fail _

theorem mapLiteral_legible : Aims Token.Legible (mapLiteral self) Expr.Legible := by
  refine .withSpacing _ ((Aims.lift .cur).bind fun token htoken => .after .advance fun _ => ?_)
  refine (Aims.lift (layoutItems_fits .nil)).bind fun layout hlayout => .after .get fun s => ?_
  refine (pairsWithin_legible h _ hlayout (by simp)).bind fun ⟨layout, pairs⟩ ⟨hlayout, hpairs⟩ => ?_
  refine (Aims.require _).andThen fun _ => .after .advanceOne fun _ => ?_
  dsimp only
  split
  · next hempty =>
    obtain rfl := List.isEmpty_iff.1 hempty
    exact .pure ⟨htoken, .map hlayout (by simp)⟩
  · refine .pure ⟨htoken, .map (by rwa [List.length_map]) fun p hp => ?_⟩
    obtain ⟨pair, hpair, rfl⟩ := List.mem_map.1 hp
    obtain ⟨hkey, hvalue⟩ := hpairs pair hpair
    exact ⟨hkey, hvalue.wrap _⟩

theorem unary_legible (op : UnaryOp) : Aims Token.Legible (unary self op) Expr.Legible := by
  refine (Aims.lift .cur).bind fun token htoken => .after .advance fun _ => .after .get fun s => ?_
  refine .ifFail (.failAt htoken _) ((h .unary).bind fun e he => ?_)
  exact .unlessFail (.failAt htoken _) (.pure ⟨htoken, .unary op he.neat⟩)

theorem grouped_legible : Aims Token.Legible (grouped self) Expr.Legible := by
  refine .withSpacing _ ((Aims.lift .cur).bind fun token htoken => .after .advance fun _ => ?_)
  refine (Aims.lift (topLevel_legible h)).bind fun inner? hinner => .after (.expect _) fun closed => ?_
  cases inner? with
  | none => exact .failure
  | some inner =>
    exact .unlessFail .failure (.after .advanceOne fun _ => .pure ⟨htoken, .group (hinner inner rfl).neat⟩)

theorem operand_legible : Aims Token.Legible (operand self) Expr.Legible := by
  refine .here fun s hs => ?_
  have htoken := hs.cur
  have hbool (value : Bool) : Aims Token.Legible (do
      advance
      return .bool ⟨s.cur, .bool⟩ value) Expr.Legible :=
    .after .advance fun _ => .pure ⟨htoken, .bool value⟩
  have hstr : Aims Token.Legible (do
      advance
      return .str ⟨s.cur, .string⟩ s.cur.literal) Expr.Legible :=
    .after .advance fun _ => .pure ⟨htoken, .str _⟩
  have hnone : Aims Token.Legible (do
      reportOperand
      failure) Expr.Legible := .after reportOperand_points fun _ => .failure
  split
  · next hk => exact readVariable_legible hs hk
  · exact hstr s hs
  · exact numLiteral_legible s hs
  · exact hbool true s hs
  · exact hbool false s hs
  · exact arrayLiteral_legible h s hs
  · exact mapLiteral_legible h s hs
  · exact unary_legible h _ s hs
  · exact unary_legible h _ s hs
  · exact grouped_legible h s hs
  · exact hnone s hs

theorem binary_legible (op : BinaryOp) {left : Expr} (hleft : left.Neat) :
    Aims Token.Legible (binary self op left) Expr.Legible := by
  refine (Aims.lift .cur).bind fun token htoken => .after .advance fun _ => (h _).bind fun right hright => ?_
  obtain ⟨hleft, hright⟩ := hleft.joinable op hright.neat
  have hresult (left right : Expr) (hleft : left.Neat) (hright : right.Neat) : Aims Token.Legible (do
      return .binary ⟨token, resultType op left.ty right.ty⟩ op (← get).isSpaced left right) Expr.Legible :=
    .after .get fun _ => .pure ⟨htoken, .binary op _ hleft hright⟩
  dsimp only
  split
  · exact (Aims.failAt (Q := fun _ => True) htoken _).andThen fun _ => hresult _ _ hleft hright
  · exact hresult _ _ hleft hright

theorem sliceRest_legible {token : Token} (htoken : token.Legible) {left : Expr} (hleft : left.Neat)
    {start : Option Expr} (hstart : ∀ e, start = some e → e.Legible) :
    Aims Token.Legible (sliceRest self token left start) Expr.Legible := by
  refine .unlessFail (.failAt htoken _) (.after .look fun k => ?_)
  extract_lets rest
  have hrest (stop : Option Expr) (hstop : ∀ e, stop = some e → e.Legible) :
      Aims Token.Legible (rest stop) Expr.Legible := by
    have hbounds : ∀ b ∈ start.toList ++ stop.toList, b.token.Legible := by
      intro b hb
      rcases List.mem_append.1 hb with hb | hb
      · exact (hstart b (Option.mem_toList.1 hb)).token
      · exact (hstop b (Option.mem_toList.1 hb)).token
    refine (Aims.require _).andThen fun _ => (Aims.forIn fun b hb => ?_).andThen fun _ => ?_
    · exact .unlessFail (.failAt (hbounds b hb) _) (.pure trivial)
    · refine .after .advanceOne fun _ => .pure ⟨htoken, .slice hleft ?_ ?_⟩
      · exact fun e he => (hstart e he).neat
      · exact fun e he => (hstop e he).neat
  refine .ite (hrest none nofun) ?_
  rw [map_eq_pure_bind]
  have hsome : Aims Token.Legible (topLevel self >>= fun e => pure (some e)) fun stop =>
      ∀ e, stop = some e → e.Legible :=
    (topLevel_legible h).bind fun e he => .pure fun _ heq => Option.some.inj heq ▸ he
  exact hsome.bind hrest

theorem indexOrSlice_legible {left : Expr} (hleft : left.Neat) (allowSlice : Bool) :
    Aims Token.Legible (indexOrSlice self left allowSlice) Expr.Legible := by
  refine .withSpacing _ ((Aims.lift .cur).bind fun token htoken => .after .get fun s => .ifFail (.fail _) ?_)
  refine .after .advance fun _ => .unlessFail (.failAt htoken _) ?_
  have hslice (start : Option Expr) (hstart : ∀ e, start = some e → e.Legible) : Aims Token.Legible (do
      advance
      return ← sliceRest self token left start : Attempt Expr) Expr.Legible :=
    .after .advance fun _ => sliceRest_legible h htoken hleft hstart
  refine .after .look fun _ => .ite (hslice none nofun) ((topLevel_legible h).bind fun key hkey => ?_)
  refine .after .look fun _ => .ite (hslice (some key) fun _ heq => Option.some.inj heq ▸ hkey) ?_
  refine (Aims.require _).andThen fun _ => ?_
  exact .unlessFail (.failAt htoken _) (.after .advanceOne fun _ => .pure ⟨htoken, .index hleft hkey.neat⟩)

theorem afterOperand_legible {left : Expr} (hleft : left.Neat) :
    Aims Token.Legible (afterOperand self left) Expr.Legible := by
  refine .after .get fun s => ?_
  split
  · exact binary_legible h _ hleft
  · exact .ite (indexOrSlice_legible h hleft _) (.ite (typeAssertion_legible hleft) (field_legible hleft))

theorem operatorsWithin_legible (p : Precedence) (fuel : Nat) {left : Expr} (hleft : left.Legible) :
    Aims Token.Legible (operatorsWithin self p fuel left) Expr.Legible := by
  induction fuel generalizing left with
  | zero => exact .pure hleft
  | succ fuel ih =>
    refine .after .look fun ended => .after .look fun k => .ite (.pure hleft) ?_
    exact (afterOperand_legible h hleft.neat).bind fun left hleft => ih hleft

end

theorem exprWithin_legible (fuel : Nat) (p : Precedence) : Aims Token.Legible (exprWithin fuel p) Expr.Legible := by
  induction fuel generalizing p with
  | zero => exact .failure
  | succ fuel ih =>
    exact (operand_legible ih).bind fun left hleft => .after .get fun s => operatorsWithin_legible ih p s.fuel hleft

theorem nested_legible (p : Precedence) : Aims Token.Legible (nested p) Expr.Legible :=
  .after .get fun s => exprWithin_legible s.fuel p

/-- Every expression that is read from a source is neat. -/
theorem topLevelExpr_legible : Aims Token.Legible topLevelExpr Expr.Legible :=
  topLevel_legible nested_legible

end Parsing

end TinyScript
