import TinyScript.Parsing.Expression
import TinyScript.Proofs.Scribing.Copying
import TinyScript.Proofs.Scribing.Literals

/-!
# Copies of operands

Every parser for expressions goes on over tokens that a scribe copies in the layout of the expression it
returns. What is nested is read by a parser `self` that does so (`Writes`).
-/

namespace TinyScript.Layout
open Word

/-- The level of literals in an expression. -/
def Scribe.exprLevel (c : Scribe) : Nat :=
  Scribe.depth c.level c.frames

/-- A scribe that comes to the end of the expression `c` is in. -/
structure Ready (fn : String → Bool) (c c' : Scribe) : Prop where
  kind : c'.kind = c.kind
  declared : c'.declared = c.declared
  close : ∀ kind literal blank, closesOperand kind →
    stroke fn c' kind literal blank = closingStroke c kind literal c.frames

theorem Ready.operand {fn : String → Bool} {c : Scribe} {first : Bool} {lead : Lead}
    (hplace : c.place = .operand first lead) (hlead : lead ≠ .tight) : Ready fn c c :=
  ⟨rfl, rfl, fun _ _ _ hk => stroke_operand_close hplace hk hlead⟩

theorem closingStroke_goTo {c : Scribe} {kind : TokenKind} {literal : String} {frames fs : List LineFrame}
    {place : Place} : closingStroke { c with frames := fs, place } kind literal frames =
      closingStroke c kind literal frames := by
  induction frames with
  | nil => rfl
  | cons f frames ih =>
    cases f with
    | args => exact ih
    | _ => rfl

theorem Ready.operator {fn : String → Bool} {c : Scribe} (hspaced : Scribe.spaced c.frames = false) :
    Ready fn c (c.goTo .operator) :=
  ⟨rfl, rfl, fun _ _ _ hk =>
    (stroke_close (c := c.goTo .operator) rfl hk hspaced).trans closingStroke_goTo⟩

/-- After the arguments of a call. -/
theorem Ready.arguments {fn : String → Bool} {c c' : Scribe} {q : Place}
    (hc : c' = c.enter .args q) (hplace : q = .operator ∨ q = .argument) : Ready fn c c' := by
  subst hc
  refine ⟨rfl, rfl, fun kind literal blank hk => ?_⟩
  have hbetween : betweenStroke fn (c.enter .args q) kind literal = closingStroke c kind literal c.frames :=
    (betweenStroke_close rfl hk).trans closingStroke_goTo
  rcases hplace with rfl | rfl
  · have hends : continuesOperand kind = false := by cases kind <;> first | rfl | cases hk
    exact (stroke_end rfl (.inl hends) rfl).trans hbetween
  · exact hbetween

end TinyScript.Layout

namespace TinyScript.Parsing
open Layout Word

/-- At an operand of an expression, which is copied after `gap`. -/
structure AtOperand (d : Draft) (spacing : List Bool) (n : Nat) (p : Page) (c : Scribe) (gap : List Word)
    (s : State) : Prop extends On d spacing n p s where
  declared_eq : c.declared = p.scribe.declared
  opens : startsOperand s.cur.kind → stroke d.fn p.scribe s.cur.kind s.cur.literal s.afterBlank =
    operandStroke d.fn c s.cur.kind s.cur.literal false gap

/-- After an operand. Where blanks separate expressions, none comes right before. -/
structure AfterOperand (d : Draft) (σ : List Bool) (n : Nat) (p : Page) (s : State) : Prop extends
    On d σ n p s where
  tight : σ.headD false = true → s.afterBlank = false

theorem AfterOperand.mono {d : Draft} {σ : List Bool} {m n : Nat} {p : Page} {s : State} (h : AfterOperand d σ n p s)
    (hm : m ≤ n) : AfterOperand d σ m p s :=
  { h.toOn.mono hm with tight := h.tight }

/-- After an operand that is copied. -/
abbrev Wrote (d : Draft) (spacing : List Bool) (n : Nat) (p : Page) (c : Scribe) (words : List Word)
    (s : State) : Prop :=
  AfterOperand d spacing n (p.add words (c.goTo .operator)) s

/-- The expression before this place ends. -/
def Rests (s : State) : Prop :=
  (s.isSpaced ∧ s.cur.kind = .ws) ∨ continuesOperand s.cur.kind = false

/-- The expression before this place has ended. -/
def Settled (s : State) : Prop :=
  s.afterBlank ∨ continuesOperand s.cur.kind = false

/-- The parser `self` for nested expressions copies what it reads, from index `k` on. -/
def Writes (d : Draft) (k : Nat) (self : Nested) : Prop :=
  ∀ prec spacing n p c gap, k ≤ n → Scribe.spaced c.frames = spacing.headD false →
    Gets (AtOperand d spacing n p c gap) (self prec) fun e s =>
      Wrote d spacing (n + 1) p c (gap ++ expr c.exprLevel e) s ∧ (prec = .lowest → Rests s)

/-- The scribe knows the functions that the parser knows. -/
def Draft.Knows (d : Draft) : Prop :=
  ∀ name, d.fn name = (d.known.find? (·.name == name)).isSome

variable {d : Draft} {σ : List Bool} {n k : Nat} {p : Page} {c c' : Scribe} {gap words w : List Word}
  {s : State} {self : Nested}

theorem startsOperand_ne {kind : TokenKind} (h : startsOperand kind) : kind ≠ .eof ∧ kind ≠ .ws := by
  constructor <;> rintro rfl <;> cases h

/-! ### Steps -/

theorem On.pushSpacing (h : On d σ n p s) (spaced : Bool) : On d (spaced :: σ) n p (s.pushSpacing spaced) :=
  { h with spacing := congrArg (spaced :: ·) h.spacing }

theorem On.withScopes {ss : Scopes} (h : On d σ n p s) (hss : ss.names ⊆ p.scribe.declared) :
    On d σ n p { s with scopes := ss } :=
  { h with scopes := hss }

theorem On.tail {spaced : Bool} (h : On d (spaced :: σ) n p s) :
    On d σ n p { s with spacing := s.spacing.tail } :=
  { h with spacing := by rw [h.spacing]; rfl }

/-- Goes past blanks. -/
theorem On.advanceBlank (h : On d σ n p s) (hk : s.cur.kind = .ws) :
    On d σ n p s.advance ∧ s.advance.afterBlank = true := by
  have hskip {t : State} (ht : On d σ n p t) (hblank : t.afterBlank = true) :
      On d σ n p t.skipBlank ∧ t.skipBlank.afterBlank = true := by
    refine ⟨ht.skipBlank, ?_⟩
    unfold State.skipBlank
    split
    · next hws => exact ht.afterBlank_of_ws hws
    · exact hblank
  have hone : On d σ n p s.advanceOne := by
    have h' := h.skipBlank
    rwa [State.skipBlank, if_pos hk] at h'
  have hblank : s.advanceOne.afterBlank = true := h.afterBlank_of_ws hk
  unfold State.advance
  dsimp only
  split
  · exact ⟨hone, hblank⟩
  · exact hskip hone hblank

/-- Copies a token in the same row, and goes past a blank unless blanks separate expressions. -/
theorem On.step (h : On d σ n p s) (heof : s.cur.kind ≠ .eof) (hk : s.cur.kind ≠ .ws)
    (hstroke : stroke d.fn p.scribe s.cur.kind s.cur.literal s.afterBlank = some (w, c))
    (hc : c.place ≠ .start) : AfterOperand d σ (n + 1) (p.add w c) s.advance := by
  have hone := h.advance heof hk hstroke
  rw [Page.write_eq_add hc] at hone
  refine { hone with tight := fun hspaced => ?_ }
  rw [h.advance_of_spaced hspaced]
  exact h.afterBlank_advanceOne heof hk

/-- Copies a token in the same row. -/
theorem On.stepOne (h : On d σ n p s) (heof : s.cur.kind ≠ .eof) (hk : s.cur.kind ≠ .ws)
    (hstroke : stroke d.fn p.scribe s.cur.kind s.cur.literal s.afterBlank = some (w, c))
    (hc : c.place ≠ .start) :
    On d σ (n + 1) (p.add w c) s.advanceOne ∧ s.advanceOne.afterBlank = false := by
  have hone := h.advanceOne heof hk hstroke
  rw [Page.write_eq_add hc] at hone
  exact ⟨hone, h.afterBlank_advanceOne heof hk⟩

/-- Leaves a construct right after its last token. -/
theorem On.pop {spaced : Bool} (h : On d (spaced :: σ) n p s) (htight : s.afterBlank = false) :
    AfterOperand d σ n p s.popSpacing := by
  have ht := h.tail
  unfold State.popSpacing
  dsimp only
  split
  · next hgo =>
    simp only [Bool.and_eq_true, decide_eq_true_eq, Bool.not_eq_true'] at hgo
    refine { (ht.advanceBlank hgo.2).1 with tight := fun hspaced => ?_ }
    rw [ht.isSpaced, hspaced] at hgo
    cases hgo.1
  · exact { ht with tight := fun _ => htight }

/-- Leaves an expression among others that blanks separate. -/
theorem On.popRests (h : On d (true :: σ) n p s) (hrests : Rests s) :
    On d σ n p s.popSpacing ∧ Settled s.popSpacing := by
  have ht := h.tail
  unfold State.popSpacing
  dsimp only
  split
  · next hgo =>
    simp only [Bool.and_eq_true, decide_eq_true_eq, Bool.not_eq_true'] at hgo
    obtain ⟨hon, hblank⟩ := ht.advanceBlank hgo.2
    exact ⟨hon, .inl hblank⟩
  · refine ⟨ht, .inr ?_⟩
    rcases hrests with ⟨-, hk⟩ | hk
    · have hcur : ({ s with spacing := s.spacing.tail } : State).cur = s.cur := rfl
      rw [hcur, hk]
      rfl
    · exact hk

theorem On.skipBlankSettled (h : On d σ n p s) (hset : Settled s) :
    On d σ n p s.skipBlank ∧ Settled s.skipBlank := by
  refine ⟨h.skipBlank, ?_⟩
  unfold State.skipBlank
  split
  · next hk => exact .inl (h.afterBlank_of_ws hk)
  · exact hset

section
variable {α : Type} {P P' R : State → Prop} {Q Q' S : α → State → Prop}

theorem Gets.withSpacing {m : Attempt α} (spaced : Bool) (hpush : ∀ s, P s → R (s.pushSpacing spaced))
    (hm : Gets R m S) (hpop : ∀ a s, S a s → Q a s.popSpacing) : Gets P (withSpacing spaced m) Q := by
  refine Parses.bind (Parses.moveTo (Q := fun _ => R) (State.moves_pushSpacing spaced) hpush) fun _ => ?_
  refine Parses.bind hm fun r => ?_
  refine (Parses.moveTo (Q := fun _ s => ∃ a, r = some a ∧ Q a s) State.moves_popSpacing ?_).bind fun _ =>
    Parses.pure fun _ => id
  rintro s ⟨a, ha, hQ⟩
  exact ⟨a, ha, hpop a s hQ⟩

theorem Parses.readVar? {name : String} {Q : Option Var → State → Prop}
    (h : ∀ s v ss, P s → s.scopes.read? name = some (v, ss) → Q (some v) { s with scopes := ss })
    (hnone : ∀ s, P s → Q none s) : Parses P (readVar? name) Q := by
  intro s hs hclean
  rw [run_readVar?] at hclean ⊢
  cases hread : s.scopes.read? name with
  | none =>
    rw [hread] at hclean
    exact ⟨hclean, hnone s (hs hclean)⟩
  | some r =>
    rw [hread] at hclean
    exact ⟨hclean, h s r.1 r.2 (hs hclean) hread⟩

end

/-! ### Single tokens -/

/-- Copies the first token of an operand. -/
theorem AtOperand.step {e : Scribe} (h : AtOperand d σ n p c gap s) (hk : startsOperand s.cur.kind)
    (hstroke : operandStroke d.fn c s.cur.kind s.cur.literal false gap = some (w, e))
    (hc : e.place ≠ .start) : AfterOperand d σ (n + 1) (p.add w e) s.advance :=
  h.toOn.step (startsOperand_ne hk).1 (startsOperand_ne hk).2 ((h.opens hk).trans hstroke) hc

theorem readVariable_writes : Gets (fun s => AtOperand d σ n p c gap s ∧ s.cur.kind = .ident) readVariable
    fun e s => Wrote d σ (n + 1) p c (gap ++ expr c.exprLevel e) s := by
  refine .lookThen fun token => .moveTo (Q := fun s => s.scopes.names ⊆ c.declared ∧
    (token.literal ∈ c.declared → Wrote d σ (n + 1) p c (gap ++ [ident token.literal]) s)) State.moves_advance ?_ ?_
  · rintro s ⟨⟨hs, hk⟩, rfl⟩
    have hscopes : s.advance.scopes.names ⊆ c.declared := hs.declared_eq ▸ hs.toWithin.advance.scopes
    refine ⟨hscopes, fun hmem => hs.step (by rw [hk]; rfl) ?_ nofun⟩
    simp [hk, operandStroke, hmem]
  · refine .ifFail (.failAt _ _) fun _ => .liftBind (Parses.readVar? (Q := fun r s => ∀ v, r = some v →
      Wrote d σ (n + 1) p c (gap ++ [ident v.name]) s) ?_ fun _ _ => nofun) fun r => ?_
    · rintro s v ss ⟨hscopes, hs⟩ hread w hw
      cases hw
      obtain ⟨hmem, hname, hnames⟩ := Scopes.names_read? hread
      have hwrote := hs (hscopes hmem)
      rw [hname]
      refine { hwrote.toOn.withScopes ?_ with tight := hwrote.tight }
      rw [hnames]
      exact hwrote.scopes
    · cases r with
      | none => exact .lookThen fun b => .ite (fun _ => (Aborts.failAt _ _).gets) fun _ => (Aborts.failAt _ _).gets
      | some v => exact .pure fun s hs => hs v rfl

theorem numLiteral_writes : Gets (fun s => AtOperand d σ n p c gap s ∧ s.cur.kind = .numLit) numLiteral
    fun e s => Wrote d σ (n + 1) p c (gap ++ expr c.exprLevel e) s := by
  refine .lookThen fun token => .moveTo (Q := fun s => ∀ x, Decimal.readFloat? token.literal = some x →
    Wrote d σ (n + 1) p c (gap ++ [.token .numLit (Number.text x)]) s) State.moves_advance ?_ ?_
  · rintro s ⟨⟨hs, hk⟩, rfl⟩ x hx
    refine hs.step (by rw [hk]; rfl) ?_ nofun
    simp [hk, operandStroke, hx]
  · split
    · next x hx => exact .pure fun s hs => hs x hx
    · exact (Aborts.failAt _ _).gets

/-- Reads an operand that is a single token. -/
theorem token_writes (kind : TokenKind) (hk : startsOperand kind) {token : Token} {e : Expr}
    (hstroke : operandStroke d.fn c kind token.literal false gap =
      some (gap ++ expr c.exprLevel e, c.goTo .operator)) :
    Gets (fun s => (AtOperand d σ n p c gap s ∧ s.cur.kind = kind) ∧ s.cur = token)
      (do advance; return e) fun e s => Wrote d σ (n + 1) p c (gap ++ expr c.exprLevel e) s := by
  refine .moveTo (Q := Wrote d σ (n + 1) p c (gap ++ expr c.exprLevel e)) State.moves_advance ?_
    (.pure fun _ => id)
  rintro s ⟨⟨hs, rfl⟩, rfl⟩
  exact hs.step hk hstroke nofun

/-! ### Operators before an operand -/

theorem unary_writes (hself : Writes d k self) (hk : k ≤ n + 1)
    (hspaced : Scribe.spaced c.frames = σ.headD false) (op : UnaryOp) :
    Gets (fun s => AtOperand d σ n p c gap s ∧ s.cur.kind = unaryOp op) (unary self op)
      fun e s => Wrote d σ (n + 1) p c (gap ++ expr c.exprLevel e) s := by
  refine .lookThen fun token => .moveTo (Q := AfterOperand d σ (n + 1)
    (p.add (gap ++ [sign (unaryOp op)]) (c.goTo (.operand false .tight)))) State.moves_advance ?_ ?_
  · rintro s ⟨⟨hs, hk⟩, rfl⟩
    refine hs.step (by cases op <;> rw [hk] <;> rfl) ?_ nofun
    cases op <;> rw [hk] <;> rfl
  · refine .state fun t => .ifFail (.failAt _ _) fun htight => ?_
    refine Gets.bind ((hself .unary σ (n + 1) (p.add (gap ++ [sign (unaryOp op)]) (c.goTo (.operand false .tight)))
      c [] hk hspaced).conseq ?_ fun _ _ => id) fun e => ?_
    · rintro s ⟨hs, rfl⟩
      refine { hs with declared_eq := rfl, opens := fun hstart => ?_ }
      exact stroke_operand (c := c.goTo (.operand false .tight)) rfl hstart
        (fun _ => by simpa [State.afterBlank] using htight)
        nofun
    · refine .unlessFail (.failAt _ _) fun _ => .pure fun s hs => ?_
      have hs := hs.1.mono (Nat.le_succ _)
      rw [Page.add_add] at hs
      simpa [Wrote, expr] using hs

/-! ### Calls -/

theorem spacedExpr_writes (gap : List Word) (hself : Writes d k self) (hk : k ≤ n)
    (hspaced : Scribe.spaced c.frames = true) :
    Gets (AtOperand d σ n p c gap) (spacedExpr self) fun e s =>
      On d σ (n + 1) (p.add (gap ++ expr c.exprLevel e) (c.goTo .operator)) s ∧ Settled s := by
  refine .withSpacing true (fun s hs => ?_) (hself .lowest (true :: σ) n p c gap hk hspaced) fun e s hs => ?_
  · exact { hs.toOn.pushSpacing true with declared_eq := hs.declared_eq, opens := hs.opens }
  · exact hs.1.toOn.popRests (hs.2 rfl)

/-- After an expression comes the next one. -/
theorem AtOperand.next {fs : List LineFrame} (hframes : c.frames = .args :: fs)
    (h : On d σ n (p.add words (c.goTo .operator)) s) (hset : Settled s) :
    AtOperand d σ n (p.add words (c.goTo .operator)) c [space] s := by
  have hspaced : Scribe.spaced c.frames = true := by rw [hframes]; rfl
  refine { h with declared_eq := rfl, opens := fun hstart => ?_ }
  exact (stroke_end (c := c.goTo .operator) rfl hset.symm hspaced).trans
    (betweenStroke_operand (c := c.goTo .operator) hframes hstart)

theorem exprListWithin_writes {fs : List LineFrame} (hself : Writes d k self) (hk : k ≤ n)
    (hframes : c.frames = .args :: fs) (fuel : Nat) (done : Array Expr) :
    Gets (AtOperand d σ n (p.add words c') c [space]) (exprListWithin self fuel done) fun es s =>
      ∃ more c'', es = done.toList ++ more ∧ On d σ n (p.add (words ++ arguments c.exprLevel more) c'') s ∧
        (c'' = c.goTo .operator ∨ (more = [] ∧ c'' = c')) := by
  induction fuel generalizing words c' done with
  | zero => exact .pure fun s hs => ⟨[], c', by simp, by simpa [arguments] using hs.toOn, .inr ⟨rfl, rfl⟩⟩
  | succ fuel ih =>
    have hspaced : Scribe.spaced c.frames = true := by rw [hframes]; rfl
    refine .liftBind (Q := fun _ => AtOperand d σ n (p.add words c') c [space]) ?_ fun ended =>
      .ite (fun _ => ?_) fun _ => ?_
    · refine .lookThen fun kind => ?_
      split
      · exact .pure fun _ hs => hs.1
      · exact .pure fun _ hs => hs.1
      · exact .pure fun _ hs => hs.1
      · exact Parses.seen.conseq (fun _ => id) fun _ _ hs => hs.1.1
    · exact .pure fun s hs => ⟨[], c', by simp, by simpa [arguments] using hs.toOn, .inr ⟨rfl, rfl⟩⟩
    · refine (spacedExpr_writes [space] hself hk hspaced).bind fun e => ?_
      refine .moveTo (Q := AtOperand d σ n (p.add (words ++ space :: expr c.exprLevel e) (c.goTo .operator)) c [space])
        State.moves_skipBlank (fun s hs => ?_) ((ih (done.push e)).conseq (fun _ => id) ?_)
      · rw [Page.add_add] at hs
        obtain ⟨hon, hset⟩ := hs.1.skipBlankSettled hs.2
        exact .next hframes (hon.mono (Nat.le_succ _)) hset
      · rintro es s ⟨more, c'', rfl, hon, hc⟩
        refine ⟨e :: more, c'', by simp, by simpa [arguments] using hon, ?_⟩
        rcases hc with hc | ⟨-, hc⟩
        · exact .inl hc
        · exact .inl hc

/-- Reads expressions, of which the first comes after what was copied last. -/
theorem exprList_writes {fs : List LineFrame} (hself : Writes d k self) (hk : k ≤ n)
    (hframes : c.frames = .args :: fs) :
    Gets (AtOperand d σ n p c [space]) (exprList self) fun es s =>
      (es = [] ∧ On d σ n p s) ∨
        On d σ n (p.add (arguments c.exprLevel es) (c.goTo .operator)) s := by
  have hp : p.add [] p.scribe = p := by simp [Page.add]
  refine .state fun t => ?_
  have hlist : Gets (AtOperand d σ n (p.add [] p.scribe) c [space]) (exprListWithin self t.fuel #[]) _ :=
    exprListWithin_writes hself hk hframes t.fuel #[]
  refine hlist.conseq (fun s hs => ?_) ?_
  · rw [hp]
    exact hs.1
  · rintro es s ⟨more, c'', rfl, hon, hc⟩
    rcases hc with rfl | ⟨rfl, rfl⟩
    · exact .inr hon
    · refine .inl ⟨rfl, ?_⟩
      rw [← hp]
      exact hon

/-- The arguments are fitted to the parameters in place. -/
theorem checkArguments_fits {P : State → Prop} (signature : Signature) (args : List Expr) :
    Parses P (checkArguments signature args) fun args' s =>
      P s ∧ ∀ level, arguments level args' = arguments level args := by
  have hreport (index : Nat) (params : List Var) (args : List Expr) :
      Parses P (reportArguments signature.name index params args) fun _ => P := by
    induction params generalizing index args with
    | nil => exact .pure fun _ => id
    | cons v params ih =>
      cases args with
      | nil => exact .pure fun _ => id
      | cons e args =>
        unfold reportArguments
        split
        · exact ih _ _
        · exact (Parses.reportedAt (Q := fun _ => P)).bind fun _ => ih _ _
  unfold checkArguments
  split
  · next rest _ =>
    refine Parses.bind (Q := fun _ => P) ?_ fun _ => .pure fun s hs => ⟨hs, fun level => arguments_map_wrap level _ _⟩
    induction args with
    | nil => exact .pure fun _ => id
    | cons e args ih =>
      exact Parses.bind (Q := fun _ => P) (.ite (fun _ => .pure fun _ => id) fun _ => .reportedAt) fun _ => ih
  · dsimp only
    split
    · refine Parses.bind (Parses.state (Q := fun _ _ => True) fun _ _ => trivial) fun _ => ?_
      exact (Parses.reportedAt (Q := fun _ _ => False)).bind fun _ => .pure fun _ => False.elim
    · next hlength =>
      refine (hreport 1 _ _).bind fun _ => .pure fun s hs => ⟨hs, fun level => ?_⟩
      exact arguments_zipWith_wrap level (Decidable.not_not.1 hlength)

theorem Within.isFunc {declared : List String} (h : Within d σ n declared s) (hknows : d.Knows) (name : String) :
    s.isFunc name = d.fn name := by
  rw [State.isFunc, State.func?, h.known, hknows]

/-- Reads a call, whose name is copied as `g` says. -/
theorem call_writes {fs : List LineFrame} {g : String → List Word × Scribe} (hknows : d.Knows)
    (hself : Writes d k self) (hk : k ≤ n + 1) (hframes : c.frames = .args :: fs)
    (hhead : ∀ name blank, d.fn name → stroke d.fn p.scribe .ident name blank = some (g name))
    (hopens : ∀ name, d.fn name → (g name).2.place ≠ .start ∧ c.declared = (g name).2.declared ∧
      ∀ kind literal blank, startsOperand kind →
        stroke d.fn (g name).2 kind literal blank = operandStroke d.fn c kind literal false [space]) :
    Gets (fun s => On d σ n p s ∧ s.cur.kind = .ident ∧ d.fn s.cur.literal) (call self) fun r s =>
      d.fn r.name ∧ ((r.args = [] ∧ On d σ (n + 1) (p.add (g r.name).1 (g r.name).2) s) ∨
        On d σ (n + 1) (p.add ((g r.name).1 ++ arguments c.exprLevel r.args) (c.goTo .operator)) s) := by
  refine .lookThen fun token => .state fun t => ?_
  split
  · next signature _ =>
    refine .moveTo (Q := fun s => d.fn token.literal ∧
      AtOperand d σ (n + 1) (p.add (g token.literal).1 (g token.literal).2) c [space] s)
      State.moves_advance ?_ ?_
    · rintro s ⟨⟨⟨hon, hk, hfn⟩, rfl⟩, rfl⟩
      obtain ⟨hplace, hdeclared, hopens⟩ := hopens _ hfn
      have hstep := hon.step (by rw [hk]; nofun) (by rw [hk]; nofun) (by rw [hk]; exact hhead _ _ hfn) hplace
      exact ⟨hfn, { hstep with declared_eq := hdeclared, opens := fun hstart => hopens _ _ _ hstart }⟩
    · refine Gets.bind (exprList_writes hself hk hframes).frame fun args => ?_
      refine .liftBind (checkArguments_fits signature args) fun args' => .pure ?_
      rintro s ⟨⟨hfn, h⟩, hsame⟩
      refine ⟨hfn, ?_⟩
      rcases h with ⟨rfl, hon⟩ | hon
      · cases args' with
        | nil => exact .inl ⟨rfl, hon⟩
        | cons e args' => cases hsame 0
      · rw [Page.add_add] at hon
        rw [hsame]
        exact .inr hon
  · next hnone =>
    refine .failure ?_
    rintro s ⟨⟨⟨hon, -, hfn⟩, rfl⟩, rfl⟩
    rw [← hon.isFunc hknows, State.isFunc] at hfn
    obtain ⟨sig, hsig⟩ := Option.isSome_iff_exists.1 hfn
    exact hnone sig hsig

/-- Reads an expression where a call needs no parentheses. -/
theorem topLevel_writes {lead : Lead} (hknows : d.Knows) (hself : Writes d k self) (hk : k ≤ n)
    (hplace : p.scribe.place = .operand true lead) (hlead : lead ≠ .tight) (hsp : σ.headD false = false)
    (hspaced : Scribe.spaced p.scribe.frames = false) :
    Gets (On d σ n p) (topLevel self) fun e s => ∃ c', Ready d.fn p.scribe c' ∧ c'.place ≠ .start ∧
      On d σ (n + 1) (p.add (lead.words ++ expr p.scribe.exprLevel e) c') s := by
  refine .lookThen fun token => .lookThen fun isFunc => .ite (fun hcall => ?_) fun hcall => ?_
  · have hident (name : String) (blank : Bool) (hfn : d.fn name) : stroke d.fn p.scribe .ident name blank =
        some (lead.words ++ [ident name], p.scribe.enter .args .argument) := by
      unfold stroke
      rw [hplace]
      simp [hlead, operandStroke, hfn]
    refine Gets.bind ((call_writes (d := d) (σ := σ) (n := n) (p := p) (c := p.scribe.enter .args .argument)
      (g := fun name => (lead.words ++ [ident name], p.scribe.enter .args .argument)) hknows hself
      (Nat.le_succ_of_le hk) rfl hident fun name _ => ⟨by simp, rfl, fun kind literal blank hstart => ?_⟩).conseq ?_
      fun _ _ => id) fun r => ?_
    · exact betweenStroke_operand (c := p.scribe.enter .args .argument) rfl hstart
    · rintro s ⟨⟨hon, rfl⟩, hfunc⟩
      simp only [Bool.and_eq_true, decide_eq_true_eq] at hcall
      refine ⟨hon, hcall.1, ?_⟩
      rw [← hon.isFunc hknows, hfunc]
      exact hcall.2
    · refine .pure fun s hs => ?_
      rcases hs.2 with ⟨hnil, hon⟩ | hon
      · exact ⟨_, Ready.arguments rfl (.inr rfl), by simp, by simpa [expr, hnil, arguments] using hon⟩
      · exact ⟨_, Ready.arguments (q := .operator) rfl (.inl rfl), by simp, by
          have hlevel : (p.scribe.enter .args .argument).exprLevel = p.scribe.exprLevel := rfl
          show On d σ (n + 1) (p.add _ ((p.scribe.enter .args .argument).goTo .operator)) s
          simpa [expr, hlevel] using hon⟩
  · refine (hself .lowest σ n p p.scribe lead.words hk (hspaced.trans hsp.symm)).conseq ?_ ?_
    · rintro s ⟨⟨hon, rfl⟩, hfunc⟩
      refine { hon with declared_eq := rfl, opens := fun hstart => ?_ }
      refine stroke_operand hplace hstart (fun h => absurd h hlead) fun _ hident => ?_
      rw [← hon.isFunc hknows, hfunc]
      simpa [hident] using hcall
    · exact fun e s hs => ⟨_, Ready.operator hspaced, by simp, hs.1.toOn⟩

/-! ### Parentheses -/

theorem grouped_writes (hknows : d.Knows) (hself : Writes d k self) (hk : k ≤ n + 1) :
    Gets (fun s => AtOperand d σ n p c gap s ∧ s.cur.kind = .lParen) (grouped self)
      fun e s => Wrote d σ (n + 1) p c (gap ++ expr c.exprLevel e) s := by
  let c' := c.enter .paren (.operand true .none)
  refine .withSpacing (S := fun e s => On d (false :: σ) (n + 1)
    (p.add (gap ++ expr c.exprLevel e) (c.goTo .operator)) s ∧ s.afterBlank = false) false
    (R := fun s => AtOperand d (false :: σ) n p c gap s ∧ s.cur.kind = .lParen) ?_ ?_ ?_
  · rintro s ⟨hs, hk⟩
    exact ⟨{ hs.toOn.pushSpacing false with declared_eq := hs.declared_eq, opens := hs.opens }, hk⟩
  · refine .lookThen fun token => .moveTo (Q := On d (false :: σ) (n + 1) (p.add (gap ++ [sign .lParen]) c'))
      State.moves_advance ?_ ?_
    · rintro s ⟨⟨hs, hk⟩, rfl⟩
      have hplace : c'.place ≠ .start := by rw [show c'.place = .operand true .none from rfl]; nofun
      exact (hs.step (by rw [hk]; rfl) (by rw [hk]; rfl) hplace).toOn
    refine .liftBind (topLevel_writes (p := p.add (gap ++ [sign .lParen]) c') hknows hself hk rfl nofun rfl rfl)
      fun inner? => ?_
    refine .liftBind (Parses.expectThen .rParen (Q := fun b s => b = true ∧ ∃ e, inner? = some e ∧ ∃ c'',
      Ready d.fn c' c'' ∧ On d (false :: σ) (n + 2)
        (p.add (gap ++ [sign .lParen] ++ expr c.exprLevel e) c'') s ∧ s.cur.kind = .rParen) ?_) fun closed => ?_
    · rintro s ⟨e, he, c'', hready, -, hon⟩ hk
      rw [Page.add_add] at hon
      exact ⟨rfl, e, he, c'', hready, hon, hk⟩
    cases inner? with
    | none => exact .failure (by simp)
    | some e =>
      refine .ite (fun hclosed => ?_) fun hopen => .failure fun s hs => hopen hs.1
      refine .moveTo (Q := fun s => On d (false :: σ) (n + 1)
        (p.add (gap ++ expr c.exprLevel (.group ⟨token, e.ty⟩ e)) (c.goTo .operator)) s ∧ s.afterBlank = false)
        State.moves_advanceOne ?_ (.pure fun _ => id)
      rintro s ⟨-, _, he, c'', hready, hon, hk⟩
      cases he
      obtain ⟨hone, htight⟩ := hon.stepOne (by rw [hk]; nofun) (by rw [hk]; nofun)
        ((hready.close _ _ _ (by rw [hk]; rfl)).trans (by rw [hk]; rfl)) (c := c'.leaveTo c.frames) nofun
      rw [Page.add_add] at hone
      refine ⟨?_, htight⟩
      have hgoTo : c'.leaveTo c.frames = c.goTo .operator := rfl
      simpa [expr, hgoTo] using hone.mono (Nat.le_add_right (n + 1) 2)
  · exact fun e s hs => hs.1.pop hs.2

end TinyScript.Parsing
