import TinyScript.Proofs.Scribing.Operators

/-!
# Copies of whole expressions

Indexes and slices, and the loops that read an expression operand by operand. What is nested starts at a
later token, so the bound on the nesting is not reached.
-/

namespace TinyScript.Layout

/-- The scribe inside an index or a slice. -/
def Scribe.inIndex (c : Scribe) : Scribe :=
  c.enter .index (.operand true .none)

@[simp] theorem Scribe.exprLevel_inIndex (c : Scribe) : c.inIndex.exprLevel = c.exprLevel := rfl

@[simp] theorem Lead.words_none : Lead.words .none = [] := rfl

end TinyScript.Layout

namespace TinyScript.Parsing
open Layout Word

variable {d : Draft} {σ : List Bool} {n m k : Nat} {p : Page} {c c' : Scribe} {gap words : List Word}
  {s : State} {self : Nested}

/-! ### Indexes and slices -/

/-- A loop without a result that goes on in every round. -/
theorem Gets.forIn {α : Type} {P : State → Prop} {f : α → PUnit → Attempt (ForInStep PUnit)}
    (hf : ∀ a, Gets P (f a ⟨⟩) fun r s => r = .yield ⟨⟩ ∧ P s) (l : List α) :
    Gets P (forIn l PUnit.unit f) fun _ => P := by
  induction l with
  | nil => exact .pure fun _ => id
  | cons a l ih =>
    rw [List.forIn_cons]
    refine Gets.bind (hf a) fun r => ?_
    cases r with
    | done => exact fun s hs hclean => nomatch (hs hclean).1
    | yield => exact ih.conseq (fun _ hs => hs.2) fun _ _ => id

/-- Inside an index or a slice after the expression that it applies to. -/
theorem On.close (hready : Ready d.fn c.inIndex c') (h : On d (false :: σ) n (p.add words c') s)
    (hk : s.cur.kind = .rBracket) :
    On d (false :: σ) (n + 1) (p.add (words ++ [sign .rBracket]) (c.goTo .operator)) s.advanceOne ∧
      s.advanceOne.afterBlank = false := by
  have hstroke := hready.close s.cur.kind s.cur.literal s.afterBlank (by rw [hk]; rfl)
  obtain ⟨hone, htight⟩ := h.stepOne (by rw [hk]; nofun) (by rw [hk]; nofun)
    (hstroke.trans (by rw [hk]; rfl)) (c := c.inIndex.leaveTo c.frames) nofun
  rw [Page.add_add] at hone
  exact ⟨hone, htight⟩

theorem On.colon (hready : Ready d.fn c.inIndex c') (h : On d (false :: σ) n (p.add words c') s)
    (hk : s.cur.kind = .colon) :
    On d (false :: σ) (n + 1) (p.add (words ++ [sign .colon]) c.inIndex) s.advance := by
  have hstroke := hready.close s.cur.kind s.cur.literal s.afterBlank (by rw [hk]; rfl)
  have hstep := h.step (by rw [hk]; nofun) (by rw [hk]; nofun) (hstroke.trans (by rw [hk]; rfl)) (c := c.inIndex) nofun
  rw [Page.add_add] at hstep
  exact hstep.toOn

theorem sliceRest_writes (hknows : d.Knows) (hself : Writes d k self) (hk : k ≤ n) (token : Token) (left : Expr)
    (start : Option Expr) :
    Gets (On d (false :: σ) n (p.add (words ++ (expr c.exprLevel left ++
        sign .lBracket :: exprOption c.exprLevel start ++ [sign .colon])) c.inIndex))
      (sliceRest self token left start) fun e s =>
        On d (false :: σ) n (p.add (words ++ expr c.exprLevel e) (c.goTo .operator)) s ∧ s.afterBlank = false := by
  unfold sliceRest
  obtain ⟨before, hbefore⟩ : ∃ before, before = words ++ (expr c.exprLevel left ++
      sign .lBracket :: exprOption c.exprLevel start ++ [sign .colon]) := ⟨_, rfl⟩
  rw [← hbefore]
  refine .unlessFail (.failAt _ _) fun _ => ?_
  refine .lookThen fun kind => ?_
  extract_lets rest
  have hrest (stop : Option Expr) : Gets (fun s => ∃ c', Ready d.fn c.inIndex c' ∧
      On d (false :: σ) n (p.add (before ++ exprOption c.exprLevel stop) c') s) (rest stop) fun e s =>
        On d (false :: σ) n (p.add (words ++ expr c.exprLevel e) (c.goTo .operator)) s ∧ s.afterBlank = false := by
    refine Gets.bind (.require .rBracket (Q := fun _ s => ∃ c', (Ready d.fn c.inIndex c' ∧
      On d (false :: σ) n (p.add (before ++ exprOption c.exprLevel stop) c') s) ∧ s.cur.kind = .rBracket)
      fun s ⟨c', hs⟩ hk => ⟨c', hs, hk⟩) fun _ => ?_
    refine Gets.bind (.forIn (fun bound => .unlessFail (.failAt _ _) fun _ => .pure fun s hs => ⟨rfl, hs⟩) _)
      fun _ => ?_
    refine .moveTo (Q := fun s => On d (false :: σ) n (p.add (words ++ expr c.exprLevel
      (.slice ⟨token, left.ty.unfixed⟩ left start stop)) (c.goTo .operator)) s ∧ s.afterBlank = false)
      State.moves_advanceOne ?_ (.pure fun _ => id)
    rintro s ⟨c', ⟨hready, hon⟩, hk⟩
    obtain ⟨hone, htight⟩ := hon.close hready hk
    refine ⟨?_, htight⟩
    simpa [hbefore, expr] using hone.mono (Nat.le_succ _)
  refine .ite (fun _ => ?_) fun _ => ?_
  · refine (hrest none).conseq (fun s hs => ?_) fun _ _ => id
    exact ⟨_, Ready.operand rfl nofun, by simpa [exprOption] using hs.1⟩
  · refine Gets.bind (Q := fun stop s => ∃ c', Ready d.fn c.inIndex c' ∧
      On d (false :: σ) n (p.add (before ++ exprOption c.exprLevel stop) c') s) ?_ hrest
    have hstop := topLevel_writes (d := d) (σ := false :: σ) (p := p.add before c.inIndex) hknows hself hk rfl
      nofun rfl rfl
    refine Gets.bind (hstop.conseq (fun s hs => hs.1) fun _ _ => id) fun e => .pure ?_
    rintro s ⟨c', hready, -, hon⟩
    exact ⟨c', hready, by simpa [exprOption] using hon.mono (Nat.le_succ _)⟩

theorem indexOrSlice_writes (words : List Word) (hknows : d.Knows) (hself : Writes d k self) (hk : k ≤ n + 1)
    (hext : Prolongs d.fn c c') (left : Expr) (allowSlice : Bool) :
    Gets (fun s => On d σ n (p.add (words ++ expr c.exprLevel left) c') s ∧ s.cur.kind = .lBracket)
      (indexOrSlice self left allowSlice) fun e s => Wrote d σ (n + 1) p c (words ++ expr c.exprLevel e) s := by
  obtain ⟨before, hbefore⟩ : ∃ before, before = words ++ expr c.exprLevel left := ⟨_, rfl⟩
  refine .withSpacing (S := fun e s => On d (false :: σ) (n + 1)
    (p.add (words ++ expr c.exprLevel e) (c.goTo .operator)) s ∧
    s.afterBlank = false) false (R := fun s => On d (false :: σ) n (p.add before c') s ∧ s.cur.kind = .lBracket) ?_ ?_
    fun e s hs => hs.1.pop hs.2
  · rintro s ⟨hon, hk⟩
    exact ⟨hbefore ▸ hon.pushSpacing false, hk⟩
  refine .lookThen fun token => .state fun t => .ifFail (.fail _) fun htight => ?_
  refine .moveTo (Q := On d (false :: σ) (n + 1) (p.add (before ++ [sign .lBracket]) c.inIndex))
    State.moves_advance ?_ ?_
  · rintro s ⟨⟨⟨hon, hk⟩, rfl⟩, rfl⟩
    have hblank : s.afterBlank = false := decide_eq_false htight
    have hstep := hon.step (by rw [hk]; nofun) (by rw [hk]; nofun) (c := c.inIndex) (w := [sign .lBracket])
      (by rw [hk, hblank]; exact hext.index _) nofun
    rw [Page.add_add] at hstep
    exact hstep.toOn
  refine .unlessFail (.failAt _ _) fun _ => ?_
  have hslice (start : Option Expr) : Gets (fun s => ∃ c', Ready d.fn c.inIndex c' ∧
      On d (false :: σ) (n + 1) (p.add (before ++ sign .lBracket :: exprOption c.exprLevel start) c') s ∧
        s.cur.kind = .colon) (do advance; return ← sliceRest self token left start) fun e s =>
          On d (false :: σ) (n + 1) (p.add (words ++ expr c.exprLevel e) (c.goTo .operator)) s ∧
            s.afterBlank = false := by
    refine .moveTo (Q := On d (false :: σ) (n + 1) (p.add (words ++ (expr c.exprLevel left ++
      sign .lBracket :: exprOption c.exprLevel start ++ [sign .colon])) c.inIndex)) State.moves_advance ?_
        (sliceRest_writes hknows hself hk token left start)
    rintro s ⟨c', hready, hon, hk⟩
    simpa [hbefore] using (hon.colon hready hk).mono (Nat.le_succ _)
  refine .lookThen fun kind => .ite (fun hcolon => ?_) fun _ => ?_
  · refine (hslice none).conseq ?_ fun _ _ => id
    rintro s ⟨hon, rfl⟩
    exact ⟨_, Ready.operand rfl nofun, by simpa [exprOption] using hon, by simp_all⟩
  refine Gets.bind ((topLevel_writes (p := p.add (before ++ [sign .lBracket]) c.inIndex) hknows hself hk rfl nofun
    rfl rfl).conseq (fun s hs => hs.1) fun _ _ => id) fun key => ?_
  refine .lookThen fun kind => .ite (fun hcolon => ?_) fun _ => ?_
  · refine (hslice (some key)).conseq ?_ fun _ _ => id
    rintro s ⟨⟨c', hready, -, hon⟩, rfl⟩
    exact ⟨c', hready, by simpa [exprOption] using hon.mono (Nat.le_succ _), by simp_all⟩
  refine Gets.bind (.require .rBracket (Q := fun _ s => ∃ c', Ready d.fn c.inIndex c' ∧
    On d (false :: σ) (n + 1) (p.add (before ++ sign .lBracket :: expr c.exprLevel key) c') s ∧
      s.cur.kind = .rBracket) ?_) fun _ => ?_
  · rintro s ⟨⟨c', hready, -, hon⟩, -⟩ hk
    exact ⟨c', hready, by simpa using hon.mono (Nat.le_succ _), hk⟩
  refine .unlessFail (.failAt _ _) fun _ => .moveTo (Q := fun s => On d (false :: σ) (n + 1)
    (p.add (words ++ (expr c.exprLevel left ++ sign .lBracket :: expr c.exprLevel key ++ [sign .rBracket]))
      (c.goTo .operator)) s ∧ s.afterBlank = false) State.moves_advanceOne ?_
      (.pure fun s hs => by simpa [expr] using hs)
  rintro s ⟨c', hready, hon, hk⟩
  obtain ⟨hone, htight⟩ := hon.close hready hk
  exact ⟨by simpa [hbefore] using hone.mono (Nat.le_succ _), htight⟩

/-! ### Expressions -/

/-- The draft of a source without tokens. -/
def Draft.empty (d : Draft) : Draft :=
  { d with
    tokens := #[]
    eof_last := fun _ => id
    blank_last := fun i h => by simp [d.eof_kind] at h
    comment_last := fun i h => by simp [d.eof_kind] at h }

theorem Within.fuel {declared : List String} (h : Within d σ n declared s) : s.fuel = d.tokens.size + 1 := by
  rw [State.fuel, h.tokens]

theorem reportOperand_gets {P : State → Prop} {Q : Expr → State → Prop} :
    Gets P (do reportOperand; failure) Q := by
  refine .liftBind (Q := fun _ _ => False) ?_ fun _ => .failure fun _ => id
  refine Parses.bind (Parses.state (Q := fun _ _ => True) fun _ _ => trivial) fun s => ?_
  dsimp only
  split
  · exact .ite (fun _ => .reportedHere) fun _ => .ite (fun _ => .reportedAt) fun _ => .reportedHere
  · exact .reportedHere

theorem eq_dot_of_precedence {kind : TokenKind} (hop : BinaryOp.ofToken? kind = none) (hindex : kind ≠ .lBracket)
    (hpos : 0 < (precedenceOf kind).level) : kind = .dot := by
  cases kind <;> simp_all [BinaryOp.ofToken?, precedenceOf, Precedence.level]

theorem continuesOperand_of_atLineEnd (h : s.atLineEnd) : continuesOperand s.cur.kind = false := by
  unfold State.atLineEnd at h
  split at h
  · next hk => rw [hk]; rfl
  · next hk => rw [hk]; rfl
  · next hk => rw [hk]; rfl
  · cases h

theorem continuesOperand_of_lowest {kind : TokenKind} (h : (precedenceOf kind).level ≤ Precedence.lowest.level) :
    continuesOperand kind = false := by
  cases kind <;> first | rfl | exact absurd h (by decide)

theorem operand_writes (hknows : d.Knows) (hself : Writes d k self) (hk : k ≤ n + 1)
    (hspaced : Scribe.spaced c.frames = σ.headD false) :
    Gets (AtOperand d σ n p c gap) (operand self) fun e s =>
      Wrote d σ (n + 1) p c (gap ++ expr c.exprLevel e) s := by
  refine .lookThen fun token => ?_
  split
  · next hkind => exact readVariable_writes.conseq (fun s hs => ⟨hs.1, hs.2 ▸ hkind⟩) fun _ _ => id
  · next hkind =>
    refine (token_writes .stringLit rfl ?_).conseq (fun s hs => ⟨⟨hs.1, hs.2 ▸ hkind⟩, hs.2⟩) fun _ _ => id
    rfl
  · next hkind => exact numLiteral_writes.conseq (fun s hs => ⟨hs.1, hs.2 ▸ hkind⟩) fun _ _ => id
  · next hkind =>
    refine (token_writes .true rfl ?_).conseq (fun s hs => ⟨⟨hs.1, hs.2 ▸ hkind⟩, hs.2⟩) fun _ _ => id
    rfl
  · next hkind =>
    refine (token_writes .false rfl ?_).conseq (fun s hs => ⟨⟨hs.1, hs.2 ▸ hkind⟩, hs.2⟩) fun _ _ => id
    rfl
  · next hkind => exact (arrayLiteral_writes hself hk).conseq (fun s hs => ⟨hs.1, hs.2 ▸ hkind⟩) fun _ _ => id
  · next hkind => exact (mapLiteral_writes hself hk).conseq (fun s hs => ⟨hs.1, hs.2 ▸ hkind⟩) fun _ _ => id
  · next hkind => exact (unary_writes hself hk hspaced .not).conseq (fun s hs => ⟨hs.1, hs.2 ▸ hkind⟩) fun _ _ => id
  · next hkind => exact (unary_writes hself hk hspaced .neg).conseq (fun s hs => ⟨hs.1, hs.2 ▸ hkind⟩) fun _ _ => id
  · next hkind => exact (grouped_writes hknows hself hk).conseq (fun s hs => ⟨hs.1, hs.2 ▸ hkind⟩) fun _ _ => id
  · exact reportOperand_gets

theorem afterOperand_writes (words : List Word) (hknows : d.Knows) (hself : Writes d k self) (hk : k ≤ n + 1)
    (hspaced : Scribe.spaced c.frames = σ.headD false) (left : Expr) :
    Gets (fun s => Wrote d σ n p c (words ++ expr c.exprLevel left) s ∧ 0 < (precedenceOf s.cur.kind).level)
      (afterOperand self left) fun e s => Wrote d σ (n + 1) p c (words ++ expr c.exprLevel e) s := by
  refine .state fun t => ?_
  split
  · next op hop =>
    refine (binary_writes hself hk hspaced op left).conseq ?_ fun _ _ => id
    rintro s ⟨hs, rfl⟩
    exact ⟨hs.1, hop⟩
  next hop =>
  refine .ite (fun hindex => ?_) fun hindex => .ite (fun hassert => ?_) fun _ => ?_
  · refine (indexOrSlice_writes words hknows hself hk (.operator _ c) left true).conseq ?_ fun _ _ => id
    rintro s ⟨hs, rfl⟩
    exact ⟨hs.1.toOn, hindex⟩
  · refine (typeAssertion_writes (.operator _ c) left).conseq ?_ fun _ _ => id
    rintro s ⟨hs, rfl⟩
    exact ⟨hs.1.toOn, by simpa using hassert⟩
  · refine (field_writes words (.operator _ c) left).conseq ?_ fun _ _ => id
    rintro s ⟨hs, rfl⟩
    exact ⟨hs.1.toOn, eq_dot_of_precedence hop hindex hs.2⟩

/-- The loop comes to an end of the expression, since each round uses up a token. -/
theorem operatorsWithin_writes (words : List Word) (hknows : d.Knows) (hself : Writes d k self) (hk : k ≤ n + 1)
    (hspaced : Scribe.spaced c.frames = σ.headD false) (prec : Precedence) (fuel : Nat)
    (hfuel : d.tokens.size < fuel + n) (left : Expr) :
    Gets (Wrote d σ n p c (words ++ expr c.exprLevel left)) (operatorsWithin self prec fuel left) fun e s =>
      Wrote d σ n p c (words ++ expr c.exprLevel e) s ∧ (prec = .lowest → Rests s) := by
  induction fuel generalizing n left with
  | zero => exact fun s hs hclean => absurd (Nat.le_trans (hs hclean).lower (hs hclean).upper) (by omega)
  | succ fuel ih =>
    refine .state fun t => .lookThen fun kind => .ite (fun hended => .pure ?_) fun hgo => ?_
    · rintro s ⟨⟨hs, rfl⟩, rfl⟩
      refine ⟨hs, fun hprec => ?_⟩
      subst hprec
      simp only [Bool.or_eq_true, Bool.and_eq_true, decide_eq_true_eq] at hended
      rcases hended with (hblank | hline) | hlevel
      · exact .inl hblank
      · exact .inr (continuesOperand_of_atLineEnd hline)
      · exact .inr (continuesOperand_of_lowest hlevel)
    · refine Gets.bind ((afterOperand_writes (p := p) words hknows hself hk hspaced left).conseq ?_ fun _ _ => id)
        fun e => ?_
      · rintro s ⟨⟨hs, rfl⟩, rfl⟩
        refine ⟨hs, ?_⟩
        simp at hgo
        omega
      · exact (ih (by omega) (by omega) e).conseq (fun _ => id) fun _ _ hs => ⟨hs.1.mono (Nat.le_succ _), hs.2⟩

/-- A parser that ends without problems began without problems. -/
theorem Parses.began {α : Type} {m : Parse α} {P : State → Prop} {Q : α → State → Prop} {s : State}
    (hm : Parses P m Q) (h : (m.run s).2.Clean) : s.Clean :=
  Classical.byContradiction fun hc => hc (hm s (fun h => absurd h hc) h).1

/-- What holds of a state without problems, if the parser begins in one when it ends in one. -/
theorem Parses.ofRun {α : Type} {m : Parse α} {P : State → Prop} {Q : α → State → Prop}
    (hbegan : ∀ s, (m.run s).2.Clean → s.Clean)
    (hm : ∀ s, P s → (m.run s).2.Clean → Q (m.run s).1 (m.run s).2) : Parses P m Q :=
  fun s hs h => ⟨hbegan s h, hm s (hs (hbegan s h)) h⟩

theorem exprWithin_writes (hknows : d.Knows) (fuel : Nat) (hfuel : d.tokens.size < fuel + k) :
    Writes d k (exprWithin fuel) := by
  induction fuel generalizing d k with
  | zero =>
    intro prec σ n p c gap hk _ s hs hclean
    exact absurd (Nat.le_trans (hs hclean).lower (hs hclean).upper) (by omega)
  | succ fuel ih =>
    intro prec σ n p c gap hk hspaced
    -- what is nested starts at a later token
    have hself : Writes d (k + 1) (exprWithin fuel) := ih hknows (by omega)
    refine Gets.bind (operand_writes hknows hself (Nat.succ_le_succ hk) hspaced) fun left => .state fun t => ?_
    have hempty := operatorsWithin_writes (d := d.empty) (p := p) (n := 0) gap hknows
      (ih (d := d.empty) (k := 1) hknows (Nat.succ_pos _)) (Nat.le_refl _) hspaced prec t.fuel (Nat.succ_pos _) left
    refine Parses.ofRun (fun _ => hempty.began) fun s hs hclean => ?_
    obtain ⟨hon, rfl⟩ := hs
    exact (operatorsWithin_writes gap hknows hself (by omega) hspaced prec _ (by rw [hon.fuel]; omega) left s
      (fun _ => hon)
      hclean).2

theorem nested_writes (hknows : d.Knows) : Writes d 0 nested := by
  intro prec σ n p c gap hk hspaced
  refine .state fun t => ?_
  refine Parses.ofRun (fun _ => (exprWithin_writes (d := d.empty) hknows t.fuel (Nat.succ_pos _) prec σ n p c gap hk
    hspaced).began) fun s hs hclean => ?_
  obtain ⟨hon, rfl⟩ := hs
  exact (exprWithin_writes hknows _ (by rw [hon.fuel]; omega) prec σ n p c gap hk hspaced s (fun _ => hon) hclean).2

/-- Reads an expression at the top level of a line. -/
theorem topLevelExpr_writes {lead : Lead} (hknows : d.Knows) (hplace : p.scribe.place = .operand true lead)
    (hlead : lead ≠ .tight) (hsp : σ.headD false = false) (hspaced : Scribe.spaced p.scribe.frames = false) :
    Gets (On d σ n p) topLevelExpr fun e s => ∃ c', Ready d.fn p.scribe c' ∧ c'.place ≠ .start ∧
      On d σ (n + 1) (p.add (lead.words ++ expr p.scribe.exprLevel e) c') s :=
  topLevel_writes hknows (nested_writes hknows) (Nat.zero_le _) hplace hlead hsp hspaced

end TinyScript.Parsing
