import TinyScript.Proofs.Scribing.Elements

/-!
# Copies of expressions

Operators after an operand, and expressions as a whole: what is nested starts at a later token, so the bound
on the nesting is not reached.
-/

namespace TinyScript.Layout
open Word

/-- Retyping the sides of a sum changes nothing in their layout. -/
theorem expr_joinable (level : Nat) (op : BinaryOp) (left right : Expr) :
    expr level (Parsing.joinable op left right).1 = expr level left ∧
      expr level (Parsing.joinable op left right).2 = expr level right := by
  unfold Parsing.joinable
  split
  · exact ⟨rfl, rfl⟩
  split
  · exact ⟨rfl, expr_wrap level _ right⟩
  split
  · exact ⟨expr_wrap level _ left, rfl⟩
  · exact ⟨rfl, rfl⟩

theorem type_fixed (t : Ty) : type t.fixed = type t := by
  unfold Ty.fixed
  split
  · cases t <;> rfl
  · rfl

theorem ofToken?_eq_some {kind : TokenKind} {op : BinaryOp} (h : BinaryOp.ofToken? kind = some op) :
    kind = binaryOp op := by
  cases kind <;> cases h <;> rfl

/-- A scribe after an operand to which an index or a field can be added. -/
structure Prolongs (fn : String → Bool) (c c' : Scribe) : Prop where
  index : ∀ literal, stroke fn c' .lBracket literal false =
    some ([sign .lBracket], c.enter .index (.operand true .none))
  dot : ∀ literal, stroke fn c' .dot literal false = some ([sign .dot], c.goTo .dot)

theorem Prolongs.operator (fn : String → Bool) (c : Scribe) : Prolongs fn c (c.goTo .operator) :=
  ⟨fun _ => stroke_index rfl, fun _ => stroke_dot rfl⟩

end TinyScript.Layout

namespace TinyScript.Parsing
open Layout Word

variable {d : Draft} {σ : List Bool} {n k : Nat} {p : Page} {c c' : Scribe} {gap words : List Word}
  {s : State} {self : Nested} {site : Site}

/-! ### Types -/

/-- Reads a type. What is read as illegal may not be copied. -/
theorem typeWithin_writes (hplace : p.scribe.place = .type site) (fuel : Nat) :
    Parses (On d σ n p) (typeWithin fuel) fun ty s => Within d σ n p.scribe.declared s ∧
      (ty.kind ≠ .illegal → ty.kind ≠ .none ∧
        On d σ n (p.add (Layout.type ty) (p.scribe.goTo site.after)) s) := by
  induction fuel generalizing p with
  | zero => exact .pure fun s hs => ⟨hs.toWithin, fun h => absurd rfl h⟩
  | succ fuel ih =>
    have hafter : (p.scribe.goTo site.after).place ≠ .start := by cases site <;> simp [Site.after]
    have hcomposite (map : Bool) (opening close : TokenKind) (f : Ty → Ty)
        (hclose : (if map then TokenKind.rCurly else TokenKind.rBracket) = close)
        (hne : close ≠ .eof ∧ close ≠ .ws)
        (hf : ∀ t : Ty, t.kind ≠ .none → (f t).kind ≠ .none ∧
          Layout.type (f t) = [sign opening, sign close] ++ Layout.type t) :
        Parses (On d σ n (p.add [sign opening] (p.scribe.goTo (.typeEnd site map)))) (do
          if (← kind) ≠ close then return .illegal
          advance
          let elem ← typeWithin fuel
          return if elem.kind = .illegal then .illegal else f elem) fun ty s =>
            Within d σ n p.scribe.declared s ∧ (ty.kind ≠ .illegal → ty.kind ≠ .none ∧
              On d σ n (p.add (Layout.type ty) (p.scribe.goTo site.after)) s) := by
      refine .lookThen fun found => .ite (fun _ => .pure fun s hs => ⟨hs.1.toWithin, fun h => absurd rfl h⟩)
        fun hfound => ?_
      refine Parses.bind (Parses.moveTo (Q := fun _ => On d σ n
        (p.add [sign opening, sign close] (p.scribe.goTo (.type site)))) State.moves_advance ?_) fun _ => ?_
      · rintro s ⟨hon, rfl⟩
        have hk := Decidable.not_not.1 hfound
        have hstep := hon.step (by rw [hk]; exact hne.1) (by rw [hk]; exact hne.2)
          (c := p.scribe.goTo (.type site)) (w := [sign close]) (by rw [hk]; exact if_pos hclose.symm) (by simp)
        simpa using hstep.toOn.mono (Nat.le_succ _)
      refine (ih (p := p.add [sign opening, sign close] (p.scribe.goTo (.type site))) rfl).bind fun elem => .pure ?_
      rintro s ⟨hwithin, hon⟩
      refine ⟨hwithin, fun hlegal => ?_⟩
      split at hlegal
      · exact absurd rfl hlegal
      · next helem =>
        obtain ⟨hnone, hon⟩ := hon helem
        obtain ⟨hkind, htype⟩ := hf elem hnone
        rw [if_neg helem, htype]
        exact ⟨hkind, by simpa using hon⟩
    refine .lookThen fun first => Parses.bind (Parses.moveTo (Q := fun _ s => Within d σ n p.scribe.declared s ∧
      ∀ c, c.place ≠ .start → first ≠ .eof → first ≠ .ws →
        (∀ literal blank, stroke d.fn p.scribe first literal blank = some ([sign first], c)) →
          On d σ n (p.add [sign first] c) s) State.moves_advance ?_) fun _ => ?_
    · rintro s ⟨hon, rfl⟩
      refine ⟨hon.toWithin.advance, fun c hc heof hws hstroke => ?_⟩
      exact (hon.step heof hws (hstroke _ _) hc).toOn.mono (Nat.le_succ _)
    split
    · exact .pure fun s hs =>
        ⟨hs.1, fun _ => ⟨by decide, hs.2 _ hafter (by simp) (by simp) fun _ _ => by simp only [stroke, hplace]⟩⟩
    · exact .pure fun s hs =>
        ⟨hs.1, fun _ => ⟨by decide, hs.2 _ hafter (by simp) (by simp) fun _ _ => by simp only [stroke, hplace]⟩⟩
    · exact .pure fun s hs =>
        ⟨hs.1, fun _ => ⟨by decide, hs.2 _ hafter (by simp) (by simp) fun _ _ => by simp only [stroke, hplace]⟩⟩
    · exact .pure fun s hs =>
        ⟨hs.1, fun _ => ⟨by decide, hs.2 _ hafter (by simp) (by simp) fun _ _ => by simp only [stroke, hplace]⟩⟩
    · refine (hcomposite false .lBracket .rBracket .array rfl ⟨by simp, by simp⟩ fun t ht =>
        ⟨fun h => (by cases h), ?_⟩).conseq (fun s hs => ?_) fun _ _ => id
      · simp [Ty.array, Layout.type, Ty.isEmpty, ht, Kind.isComposite, Layout.kind]
      · exact hs.2 _ (by simp) (by simp) (by simp) fun _ _ => by simp only [stroke, hplace]
    · refine (hcomposite true .lCurly .rCurly .map rfl ⟨by simp, by simp⟩ fun t ht =>
        ⟨fun h => (by cases h), ?_⟩).conseq (fun s hs => ?_) fun _ _ => id
      · simp [Ty.map, Layout.type, Ty.isEmpty, ht, Kind.isComposite, Layout.kind]
      · exact hs.2 _ (by simp) (by simp) (by simp) fun _ _ => by simp only [stroke, hplace]
    · exact .pure fun s hs => ⟨hs.1, fun h => absurd rfl h⟩

theorem type_writes (site : Site) (hplace : p.scribe.place = .type site) :
    Parses (On d σ n p) Parsing.type fun ty s => Within d σ n p.scribe.declared s ∧
      (ty.kind ≠ .illegal → ty.kind ≠ .none ∧
        On d σ n (p.add (Layout.type ty) (p.scribe.goTo site.after)) s) :=
  fun s => typeWithin_writes hplace s.fuel s

/-! ### Operators -/

theorem binary_writes (hself : Writes d k self) (hk : k ≤ n + 1)
    (hspaced : Scribe.spaced c.frames = σ.headD false) (op : BinaryOp) (left : Expr) :
    Gets (fun s => Wrote d σ n p c (words ++ expr c.exprLevel left) s ∧ BinaryOp.ofToken? s.cur.kind = some op)
      (binary self op left) fun e s => Wrote d σ (n + 1) p c (words ++ expr c.exprLevel e) s := by
  obtain ⟨lead, hlead⟩ : ∃ lead : Lead, lead = if Scribe.spaced c.frames then .tight else .space := ⟨_, rfl⟩
  have hgap : (if Scribe.spaced c.frames then [] else [space]) = lead.words := by
    rw [hlead]
    split <;> rfl
  refine .lookThen fun token => .moveTo (Q := fun s => token.kind = binaryOp op ∧ AfterOperand d σ (n + 1)
    (p.add (words ++ expr c.exprLevel left ++ (lead.words ++ [sign (binaryOp op)])) (c.goTo (.operand false lead))) s)
    State.moves_advance ?_ ?_
  · rintro s ⟨⟨hs, hop⟩, rfl⟩
    have hkind := ofToken?_eq_some hop
    refine ⟨hkind, ?_⟩
    have hstep := hs.toOn.step (by rw [hkind]; cases op <;> nofun) (by rw [hkind]; cases op <;> nofun)
      (stroke_binary (c := c.goTo .operator) rfl hop fun h => hs.tight (hspaced ▸ h)) nofun
    rw [Page.add_add] at hstep
    have hframes : (c.goTo .operator).frames = c.frames := rfl
    rw [hframes, hgap, ← hlead, hkind] at hstep
    exact hstep
  · refine Gets.bind (((hself (precedenceOf token.kind) σ (n + 1) (p.add (words ++ expr c.exprLevel left ++
      (lead.words ++ [sign (binaryOp op)])) (c.goTo (.operand false lead))) c lead.words hk hspaced).frame
      (φ := token.kind = binaryOp op)).conseq ?_ fun _ _ => id) fun right => ?_
    · rintro s ⟨hkind, hs⟩
      refine ⟨hkind, { hs with declared_eq := rfl, opens := fun hstart => ?_ }⟩
      refine stroke_operand (c := c.goTo (.operand false lead)) rfl hstart (fun htight => hs.tight ?_) nofun
      rw [← hspaced]
      cases hsp : Scribe.spaced c.frames with
      | true => rfl
      | false =>
        rw [hsp, htight] at hlead
        cases hlead
    · obtain ⟨hleft, hright⟩ := expr_joinable c.exprLevel op left right
      dsimp only
      split
      · exact (Aborts.bind (.failAt _ _) _).gets
      · refine .state fun t => .pure ?_
        rintro s ⟨⟨-, hs, -⟩, rfl⟩
        have htight : s.isSpaced = Scribe.spaced c.frames := hs.isSpaced.trans hspaced.symm
        have hs := hs.mono (Nat.le_succ _)
        rw [Page.add_add] at hs
        simpa [Wrote, expr, hleft, hright, htight, hgap] using hs

theorem requireTightDot_gets {P : State → Prop} : Gets P requireTightDot fun _ s =>
    P s ∧ s.afterBlank = false ∧ (s.tokenAt (s.pos + 1)).kind ≠ .ws := by
  refine .state fun t => .ifFail (.fail _) fun hprev => ?_
  refine .ite (fun _ => (Aborts.fail _).gets) fun hnext => .pure ?_
  rintro s ⟨hs, rfl⟩
  exact ⟨hs, decide_eq_false hprev, hnext⟩

/-- Copies a dot. -/
theorem On.dot (hext : Prolongs d.fn c c') (h : On d σ n (p.add words c') s) (hk : s.cur.kind = .dot)
    (htight : s.afterBlank = false) :
    On d σ (n + 1) (p.add (words ++ [sign .dot]) (c.goTo .dot)) s.advanceOne := by
  have hone := (h.stepOne (by rw [hk]; nofun) (by rw [hk]; nofun) (c := c.goTo .dot) (w := [sign .dot])
    (by rw [hk, htight]; exact hext.dot _) nofun).1
  rwa [Page.add_add] at hone

theorem field_writes (words : List Word) (hext : Prolongs d.fn c c') (left : Expr) :
    Gets (fun s => On d σ n (p.add (words ++ expr c.exprLevel left) c') s ∧ s.cur.kind = .dot) (field left)
      fun e s => Wrote d σ (n + 1) p c (words ++ expr c.exprLevel e) s := by
  refine .lookThen fun token => Gets.bind requireTightDot_gets fun _ => .moveTo (Q := On d σ (n + 1)
    (p.add (words ++ expr c.exprLevel left ++ [sign .dot]) (c.goTo .dot))) State.moves_advanceOne ?_ ?_
  · rintro s ⟨⟨⟨hon, hk⟩, -⟩, htight, -⟩
    exact hon.dot hext hk htight
  refine .unlessFail (.failAt _ _) fun _ => .lookThen fun key => .unlessFail (.failAt _ _) fun hident => ?_
  refine .moveTo (Q := Wrote d σ (n + 1) p c (words ++ (expr c.exprLevel left ++ [sign .dot, ident key.literal])))
    State.moves_advance ?_ (.pure fun s hs => by simpa [expr] using hs)
  rintro s ⟨hon, rfl⟩
  have hstep := hon.step (by rw [hident]; nofun) (by rw [hident]; nofun) (c := c.goTo .operator)
    (w := [ident s.cur.literal]) (by rw [hident]; rfl) nofun
  rw [Page.add_add] at hstep
  simpa [Wrote] using hstep.mono (Nat.le_succ _)

theorem typeAssertion_writes (hext : Prolongs d.fn c c') (left : Expr) :
    Gets (fun s => On d σ n (p.add (words ++ expr c.exprLevel left) c') s ∧ s.cur.kind = .dot ∧
      s.peek.kind = .lParen) (typeAssertion left) fun e s => Wrote d σ (n + 1) p c (words ++ expr c.exprLevel e) s := by
  obtain ⟨before, hbefore⟩ : ∃ before, before = words ++ expr c.exprLevel left := ⟨_, rfl⟩
  refine .lookThen fun token => Gets.bind requireTightDot_gets fun _ => .withSpacing (S := fun e s =>
    On d (false :: σ) (n + 1) (p.add (words ++ expr c.exprLevel e) (c.goTo .operator)) s ∧ s.afterBlank = false)
    false (R := fun s => On d (false :: σ) n (p.add before c') s ∧ s.cur.kind = .dot ∧ s.afterBlank = false ∧
      (s.tokenAt (s.pos + 1)).kind = .lParen) ?_ ?_ fun e s hs => hs.1.pop hs.2
  · rintro s ⟨⟨⟨hon, hk, hpeek⟩, -⟩, htight, hnext⟩
    refine ⟨hbefore ▸ hon.pushSpacing false, hk, htight, ?_⟩
    have hpeek' : s.peek = s.tokenAt (s.pos + 1) := by
      unfold State.peek
      dsimp only
      rw [if_neg (by simp [hnext])]
    rw [← hpeek, hpeek']
    rfl
  refine .moveTo (Q := fun s => On d (false :: σ) (n + 1) (p.add (before ++ [sign .dot]) (c.goTo .dot)) s ∧
    s.cur.kind = .lParen) State.moves_advance ?_ ?_
  · rintro s ⟨hon, hk, htight, hnext⟩
    have heof : s.cur.kind ≠ .eof := by simp [hk]
    have hdot := hon.dot hext hk htight
    have hcur : s.advanceOne.cur.kind = .lParen := by
      rw [hdot.cur, hon.pos_advanceOne heof, ← hon.tokenAt]
      exact hnext
    have hskip : s.advance = s.advanceOne := by
      rw [hon.advance_of_unspaced rfl, State.skipBlank, if_neg (by simp [hcur])]
    rw [hskip]
    exact ⟨hdot, hcur⟩
  refine .moveTo (Q := On d (false :: σ) (n + 1) (p.add (before ++ [sign .dot, sign .lParen])
    (c.goTo (.type .assertion))))
    State.moves_advance ?_ ?_
  · rintro s ⟨hon, hk⟩
    have hstep := hon.step (by simp [hk]) (by simp [hk]) (c := c.goTo (.type .assertion))
      (w := [sign .lParen]) (by rw [hk]; rfl) (by simp)
    rw [Page.add_add] at hstep
    simpa using hstep.toOn.mono (Nat.le_succ _)
  refine .liftBind (type_writes (p := p.add (before ++ [sign .dot, sign .lParen]) (c.goTo (.type .assertion)))
    .assertion rfl) fun ty => ?_
  extract_lets typeProblem isAny finish rest
  have hlegal : typeProblem = none → ty.kind ≠ .illegal := by
    intro hnone hill
    simp [typeProblem, hill] at hnone
  -- a problem with the type is reported before the parser goes on
  have hrest (u : Unit) : Gets (fun s => typeProblem = none ∧ On d (false :: σ) (n + 1)
      (p.add (before ++ [sign .dot, sign .lParen] ++ Layout.type ty) (c.goTo .assertionEnd)) s) (rest u)
      fun e s => On d (false :: σ) (n + 1) (p.add (words ++ expr c.exprLevel e) (c.goTo .operator)) s ∧
        s.afterBlank = false := by
    refine .liftBind (Parses.expectThen .rParen (Q := fun b s => (b = true ∧ typeProblem = none) ∧
      On d (false :: σ) (n + 1)
      (p.add (before ++ [sign .dot, sign .lParen] ++ Layout.type ty) (c.goTo .assertionEnd)) s ∧
        s.cur.kind = .rParen) fun s hs hk => ⟨⟨rfl, hs.1⟩, hs.2, hk⟩) fun closed => ?_
    extract_lets judge afterClosed
    have hjudge (u : Unit) : Gets (fun s => (closed = true ∧ typeProblem = none ∧ isAny = true) ∧
        On d (false :: σ) (n + 1) (p.add (words ++ expr c.exprLevel (.assert ⟨token, ty.fixed⟩ left))
          (c.goTo .operator)) s ∧ s.afterBlank = false) (judge u)
        fun e s => On d (false :: σ) (n + 1) (p.add (words ++ expr c.exprLevel e) (c.goTo .operator)) s ∧
          s.afterBlank = false :=
      .ite (fun _ => .pure fun s hs => hs.2) fun hno =>
        .failure fun s hs => hno (by simp [hs.1.1, hs.1.2.1, hs.1.2.2])
    have hafter (u : Unit) : Gets (fun s => (closed = true ∧ typeProblem = none) ∧
        On d (false :: σ) (n + 1) (p.add (words ++ expr c.exprLevel (.assert ⟨token, ty.fixed⟩ left))
          (c.goTo .operator)) s ∧ s.afterBlank = false) (afterClosed u)
        fun e s => On d (false :: σ) (n + 1) (p.add (words ++ expr c.exprLevel e) (c.goTo .operator)) s ∧
          s.afterBlank = false := by
      refine .ite (fun hany => (hjudge ()).conseq (fun s hs => ⟨⟨hs.1.1, hs.1.2, hany⟩, hs.2⟩)
        fun _ _ => id) fun _ => ?_
      exact .liftBind Parses.reportedAt hjudge
    refine .ite (fun _ => .moveTo (Q := fun s => (closed = true ∧ typeProblem = none) ∧
        On d (false :: σ) (n + 1) (p.add (words ++ expr c.exprLevel (.assert ⟨token, ty.fixed⟩ left))
          (c.goTo .operator)) s ∧ s.afterBlank = false) State.moves_advanceOne ?_ (hafter ()))
      fun hopen => (hafter ()).conseq (fun s hs => absurd hs.1.1 hopen) fun _ _ => id
    rintro s ⟨hknown, hon, hk⟩
    obtain ⟨hone, htight⟩ := hon.stepOne (by simp [hk]) (by simp [hk]) (c := c.goTo .operator)
      (w := [sign .rParen]) (by rw [hk]; rfl) (by simp)
    rw [Page.add_add, hbefore] at hone
    refine ⟨hknown, ?_, htight⟩
    simpa [expr, type_fixed, Expr.ty, Expr.mark] using hone.mono (Nat.le_succ _)
  cases hproblem : typeProblem with
  | none =>
    refine (hrest ()).conseq (fun s hs => ⟨hproblem, ?_⟩) fun _ _ => id
    simpa [Site.after] using (hs.2 (hlegal hproblem)).2
  | some problem => exact .liftBind Parses.reportedAt hrest

end TinyScript.Parsing
