import TinyScript.Proofs.Scribing.Operands

/-!
# Copies of literals

Between the elements of a literal the parser collects line ends and comments, and the scribe writes what is
left of them in the layout.
-/

namespace TinyScript.Layout
open Word

/-- The scribe is between the elements of a literal. -/
def InLiteral (c : Scribe) (level : Nat) : Prop :=
  (∃ fs, c.frames = .array level :: fs) ∨ ∃ fs, c.frames = .map level :: fs

theorem InLiteral.spaced {c : Scribe} {level : Nat} (h : InLiteral c level) : Scribe.spaced c.frames = true := by
  rcases h with ⟨fs, h⟩ | ⟨fs, h⟩ <;> rw [h] <;> rfl

theorem InLiteral.between {c : Scribe} {level : Nat} (h : InLiteral c level) (fn : String → Bool)
    (kind : TokenKind) (literal : String) (place : Place) :
    betweenStroke fn (c.goTo place) kind literal = elementStroke fn c kind literal .element := by
  have hframes : (c.goTo place).frames = c.frames := rfl
  unfold betweenStroke
  rcases h with ⟨fs, h⟩ | ⟨fs, h⟩ <;> rw [hframes, h] <;> rfl

end TinyScript.Layout

namespace TinyScript.Parsing
open Layout Word

/-- Between the elements of a literal, of which `words` are copied. -/
def Items (d : Draft) (σ : List Bool) (n : Nat) (p : Page) (c : Scribe) (last : Item) (words : List Word)
    (s : State) : Prop :=
  ∃ place, On d σ n (p.add words (c.goTo place)) s ∧
    (place = .element last ∨ (place = .operator ∧ last = .element ∧ Settled s))

variable {d : Draft} {σ : List Bool} {n k level : Nat} {p : Page} {c c' : Scribe} {gap words w : List Word}
  {s : State} {self : Nested} {last : Item}

/-- What is copied next. -/
theorem Items.stroke (hc : InLiteral c level) (h : Items d σ n p c last words s) :
    ∃ place, On d σ n (p.add words (c.goTo place)) s ∧
      stroke d.fn (c.goTo place) s.cur.kind s.cur.literal s.afterBlank =
        elementStroke d.fn c s.cur.kind s.cur.literal last := by
  obtain ⟨place, hon, rfl | ⟨rfl, rfl, hset⟩⟩ := h
  · exact ⟨_, hon, rfl⟩
  · exact ⟨_, hon, (stroke_end (c := c.goTo .operator) rfl hset.symm hc.spaced).trans (hc.between _ _ _ _)⟩

/-- Copies a token between elements. -/
theorem Items.stepOne {e : Scribe} (hc : InLiteral c level) (h : Items d σ n p c last words s)
    (heof : s.cur.kind ≠ .eof)
    (hk : s.cur.kind ≠ .ws) (hstroke : elementStroke d.fn c s.cur.kind s.cur.literal last = some (w, e))
    (he : e.place ≠ .start) :
    On d σ (n + 1) (p.add (words ++ w) e) s.advanceOne ∧ s.advanceOne.afterBlank = false := by
  obtain ⟨place, hon, h⟩ := h.stroke hc
  have hone := hon.stepOne heof hk (h.trans hstroke) he
  rwa [Page.add_add] at hone

theorem Items.step {e : Scribe} (hc : InLiteral c level) (h : Items d σ n p c last words s) (heof : s.cur.kind ≠ .eof)
    (hk : s.cur.kind ≠ .ws) (hstroke : elementStroke d.fn c s.cur.kind s.cur.literal last = some (w, e))
    (he : e.place ≠ .start) : AfterOperand d σ (n + 1) (p.add (words ++ w) e) s.advance := by
  obtain ⟨place, hon, h⟩ := h.stroke hc
  have hone := hon.step heof hk (h.trans hstroke) he
  rwa [Page.add_add] at hone

theorem Items.next (h : On d σ n (p.add words (c.goTo .operator)) s) (hset : Settled s) :
    Items d σ n p c .element words s :=
  ⟨_, h, .inr ⟨rfl, rfl, hset⟩⟩

theorem elementStroke_nl (hc : InLiteral c level) {fn : String → Bool} {literal : String} :
    elementStroke fn c .nl literal last = match last.nextLine? with
      | some next => some ([newline], c.goTo (.element next))
      | none => some ([], c.goTo (.element last)) := by
  rcases hc with ⟨fs, h⟩ | ⟨fs, h⟩ <;> cases hnext : last.nextLine? <;> simp only [elementStroke, h, hnext]

theorem elementStroke_comment (hc : InLiteral c level) {fn : String → Bool} {literal : String} :
    elementStroke fn c .comment literal last =
      some (last.commentLead level ++ [.token .comment (Text.trim literal)], c.goTo .elementEnd) := by
  unfold elementStroke
  rcases hc with ⟨fs, h⟩ | ⟨fs, h⟩ <;> rw [h]

theorem elementStroke_operand {fs : List LineFrame} (hframes : c.frames = .array level :: fs) {fn : String → Bool}
    {kind : TokenKind} {literal : String} (hk : startsOperand kind) :
    elementStroke fn c kind literal last = operandStroke fn c kind literal false (last.lead level) := by
  unfold elementStroke
  rw [hframes]
  cases kind <;> first | rfl | cases hk

/-! ### What is drawn so far -/

/-- Between the elements of a literal, of which some items with their elements are copied. -/
def Drawn (d : Draft) (σ : List Bool) (n : Nat) (p : Page) (c : Scribe) (level : Nat) (words : List Word)
    (layout : List LayoutItem) (elems : List (List Word)) (s : State) : Prop :=
  ∃ r : Item × List Word, Draws level .start layout elems r.2 r.1 ∧ Items d σ n p c r.1 (words ++ r.2) s

variable {layout : List LayoutItem} {elems : List (List Word)}

namespace Drawn

theorem start (h : On d σ n (p.add words (c.goTo (.element .start))) s) :
    Drawn d σ n p c level words [] [] s :=
  ⟨(.start, []), .nil, _, by simpa using h, .inl rfl⟩

theorem newline (hc : InLiteral c level) (h : Drawn d σ n p c level words layout elems s) (hk : s.cur.kind = .nl) :
    Drawn d σ n p c level words (layout ++ [.newline]) elems s.advanceOne := by
  obtain ⟨⟨last, w⟩, hdraws, hitems⟩ := h
  cases hnext : last.nextLine? with
  | some next =>
    obtain ⟨hon, -⟩ := hitems.stepOne hc (by rw [hk]; nofun) (by rw [hk]; nofun)
      (by rw [hk, elementStroke_nl hc, hnext]) (e := c.goTo (.element next)) nofun
    refine ⟨(next, w ++ [Word.newline]), by simpa using hdraws.append (.newline hnext), _,
      by simpa using hon.mono (Nat.le_succ _), .inl rfl⟩
  | none =>
    obtain ⟨hon, -⟩ := hitems.stepOne hc (by rw [hk]; nofun) (by rw [hk]; nofun)
      (by rw [hk, elementStroke_nl hc, hnext]) (e := c.goTo (.element last)) nofun
    exact ⟨(last, w), by simpa using hdraws.append (.noNewline hnext), _,
      by simpa using hon.mono (Nat.le_succ _), .inl rfl⟩

theorem comment (hc : InLiteral c level) (h : Drawn d σ n p c level words layout elems s)
    (hk : s.cur.kind = .comment) (hnl : s.advanceOne.cur.kind = .nl) :
    Drawn d σ n p c level words (layout ++ [.comment (Text.trim s.cur.literal)]) elems s.advanceOne.advanceOne := by
  obtain ⟨⟨last, w⟩, hdraws, hitems⟩ := h
  obtain ⟨hon, -⟩ := hitems.stepOne hc (by rw [hk]; nofun) (by rw [hk]; nofun)
    (by rw [hk, elementStroke_comment hc]) (e := c.goTo .elementEnd) nofun
  obtain ⟨hon, -⟩ := hon.stepOne (by rw [hnl]; nofun) (by rw [hnl]; nofun) (by rw [hnl]; rfl)
    (c := c.goTo (.element .comment)) (w := [Word.newline]) nofun
  refine ⟨(.comment, _), by simpa using hdraws.append (.comment _), _, ?_, .inl rfl⟩
  simpa using hon.mono (Nat.le_add_right n 2)

theorem blank (h : Drawn d σ n p c level words layout elems s) (hk : s.cur.kind = .ws) :
    Drawn d σ n p c level words layout elems s.advanceOne := by
  obtain ⟨r, hdraws, place, hon, hplace⟩ := h
  have hskip := hon.skipBlank
  rw [State.skipBlank, if_pos hk] at hskip
  exact ⟨r, hdraws, place, hskip, hplace.imp_right fun h => ⟨h.1, h.2.1, .inl (hon.afterBlank_of_ws hk)⟩⟩

theorem element {last : Item} {elem w : List Word} (hdraws : Draws level .start layout elems w last)
    (hon : On d σ n (p.add (words ++ w ++ (last.lead level ++ elem)) (c.goTo .operator)) s) (hset : Settled s) :
    Drawn d σ n p c level words (layout ++ [.element]) (elems ++ [elem]) s :=
  ⟨(.element, w ++ (last.lead level ++ elem)), hdraws.append (.element elem), .next (by simpa using hon) hset⟩

/-- The closing bracket is copied last. -/
theorem words_eq {left right : TokenKind} {r : Item × List Word} (hdraws : Draws level .start layout elems r.2 r.1) :
    sign left :: r.2 ++ (r.1.back level ++ [sign right]) = literal level left right layout elems := by
  rw [literal_eq, hdraws.all]
  simp

end Drawn

/-- Collects line ends and comments. -/
theorem layoutItems_writes (hc : InLiteral c level) (done : Array LayoutItem) :
    Parses (Drawn d σ n p c level words done.toList elems) (layoutItems done) fun layout =>
      Drawn d σ n p c level words layout.toList elems := by
  have hwithin (fuel : Nat) : Parses (Drawn d σ n p c level words done.toList elems) (layoutWithin fuel done)
      fun layout => Drawn d σ n p c level words layout.toList elems := by
    induction fuel generalizing done with
    | zero => exact .pure fun _ => id
    | succ fuel ih =>
      refine .lookThen fun token => ?_
      split
      · next hk =>
        refine Parses.bind (Parses.moveTo (Q := fun _ =>
          Drawn d σ n p c level words (done.push .newline).toList elems) State.moves_advanceOne ?_) fun _ => ih _
        rintro s ⟨hs, rfl⟩
        simpa using hs.newline hc hk
      · next hk =>
        refine Parses.bind (Parses.moveTo (Q := fun _ s => s.cur.kind = .nl → Drawn d σ n p c level words
          (done.push (.comment (Text.trim token.literal))).toList elems s.advanceOne) State.moves_advanceOne ?_)
          fun _ => ?_
        · rintro s ⟨hs, rfl⟩ hnl
          simpa using hs.comment hc hk hnl
        refine Parses.bind (Parses.expectThen .nl (Q := fun _ s => Drawn d σ n p c level words
          (done.push (.comment (Text.trim token.literal))).toList elems s.advanceOne) fun s hs hk => hs hk) fun _ => ?_
        exact Parses.bind (Parses.moveTo (Q := fun _ => Drawn d σ n p c level words
          (done.push (.comment (Text.trim token.literal))).toList elems) State.moves_advanceOne fun _ => id) fun _ =>
          ih _
      · next hk =>
        refine Parses.bind (Parses.moveTo (Q := fun _ => Drawn d σ n p c level words done.toList elems)
          State.moves_advanceOne ?_) fun _ => ih done
        rintro s ⟨hs, rfl⟩
        exact hs.blank hk
      · exact .pure fun s hs => hs.1
  exact fun s => hwithin s.fuel s

/-! ### Arrays -/

theorem exprs_append (level : Nat) (es : List Expr) (e : Expr) :
    exprs level (es ++ [e]) = exprs level es ++ [expr level e] := by
  induction es with
  | nil => rfl
  | cons e' es ih => rw [List.cons_append, exprs, exprs, ih, List.cons_append]

theorem element_writes {fs : List LineFrame} (hframes : c.frames = .array level :: fs) (hself : Writes d k self)
    (hk : k ≤ n) : Gets (Drawn d σ n p c level words layout elems) (spacedExpr self) fun e =>
      Drawn d σ n p c level words (layout ++ [.element]) (elems ++ [expr (level + 1) e]) := by
  have hc : InLiteral c level := .inl ⟨fs, hframes⟩
  have hlevel : c.exprLevel = level + 1 := by rw [Scribe.exprLevel, hframes]; rfl
  refine Parses.choose fun ⟨last, w⟩ => ?_
  have helem (place : Place) : Gets (fun s => Draws level .start layout elems w last ∧
      AtOperand d σ n (p.add (words ++ w) (c.goTo place)) c (last.lead level) s) (spacedExpr self) fun e =>
      Drawn d σ n p c level words (layout ++ [.element]) (elems ++ [expr (level + 1) e]) := by
    refine ((spacedExpr_writes _ hself hk hc.spaced).frame).conseq (fun _ => id) ?_
    rintro e s ⟨hdraws, hon, hset⟩
    rw [Page.add_add, hlevel] at hon
    exact .element hdraws (hon.mono (Nat.le_succ _)) hset
  refine (Parses.choose helem).conseq ?_ fun _ _ => id
  rintro s ⟨hdraws, hitems⟩
  obtain ⟨place, hon, hstroke⟩ := hitems.stroke hc
  exact ⟨place, hdraws, { hon with
    declared_eq := rfl, opens := fun hstart => hstroke.trans (elementStroke_operand hframes hstart) }⟩

theorem elementsWithin_writes {fs : List LineFrame} (hframes : c.frames = .array level :: fs)
    (hself : Writes d k self) (hk : k ≤ n) (fuel : Nat) (layout : Array LayoutItem) (elems : Array Expr) :
    Gets (Drawn d σ n p c level words layout.toList (exprs (level + 1) elems.toList))
      (elementsWithin self fuel layout elems) fun r =>
        Drawn d σ n p c level words r.1 (exprs (level + 1) r.2) := by
  induction fuel generalizing layout elems with
  | zero => exact .pure fun _ => id
  | succ fuel ih =>
    refine .lookThen fun kind => ?_
    split
    · exact .pure fun _ hs => hs.1
    · exact .pure fun _ hs => hs.1
    · refine Gets.bind ((element_writes hframes hself hk).conseq (fun _ hs => hs.1) fun _ _ => id) fun e => ?_
      refine .liftBind ((layoutItems_writes (.inl ⟨fs, hframes⟩) (layout.push .element)).conseq
        (fun s hs => by simpa using hs) fun _ _ => id) fun layout' => ?_
      refine (ih layout' (elems.push e)).conseq (fun s hs => ?_) fun _ _ => id
      rwa [Array.toList_push, exprs_append]

theorem arrayLiteral_writes (hself : Writes d k self) (hk : k ≤ n + 1) :
    Gets (fun s => AtOperand d σ n p c gap s ∧ s.cur.kind = .lBracket) (arrayLiteral self)
      fun e s => Wrote d σ (n + 1) p c (gap ++ expr c.exprLevel e) s := by
  obtain ⟨c', hc'⟩ : ∃ c', c' = c.enter (.array c.exprLevel) (.element .start) := ⟨_, rfl⟩
  have hframes : c'.frames = .array c.exprLevel :: c.frames := by rw [hc']; rfl
  have hc : InLiteral c' c.exprLevel := .inl ⟨_, hframes⟩
  refine .lookThen fun token => .moveTo (Q := Drawn d σ (n + 1) p c' c.exprLevel (gap ++ [sign .lBracket]) [] [])
    State.moves_advance ?_ ?_
  · rintro s ⟨⟨hs, hk⟩, rfl⟩
    subst hc'
    exact .start (hs.step (by rw [hk]; rfl) (by rw [hk]; rfl)
      (e := c.enter (.array c.exprLevel) (.element .start)) nofun).toOn
  refine .liftBind (layoutItems_writes hc #[]) fun layout => .state fun t => ?_
  refine Gets.bind ((elementsWithin_writes hframes hself hk t.fuel layout #[]).conseq (fun _ hs => hs.1)
    fun _ _ => id) fun ⟨layout, elems⟩ => ?_
  refine Gets.bind (.require .rBracket (Q := fun _ s => Drawn d σ (n + 1) p c' c.exprLevel
    (gap ++ [sign .lBracket]) layout (exprs (c.exprLevel + 1) elems) s ∧ s.cur.kind = .rBracket)
    fun s hs hk => ⟨hs, hk⟩) fun _ => ?_
  refine .moveTo (Q := Wrote d σ (n + 1) p c (gap ++ literal c.exprLevel .lBracket .rBracket layout
    (exprs (c.exprLevel + 1) elems))) State.moves_advance ?_ ?_
  · rintro s ⟨⟨r, hdraws, hitems⟩, hk⟩
    have hstep := hitems.step hc (by rw [hk]; nofun) (by rw [hk]; nofun) (e := c'.leaveTo c.frames)
      (w := r.1.back c.exprLevel ++ [sign .rBracket]) (by rw [hk, elementStroke, hframes]) nofun
    rw [← Drawn.words_eq hdraws]
    subst hc'
    have hgoTo : (c.enter (.array c.exprLevel) (.element .start)).leaveTo c.frames = c.goTo .operator := rfl
    simpa [hgoTo] using hstep.mono (Nat.le_succ _)
  · refine .ite (fun hnil => .pure fun s hs => ?_) fun _ => .pure fun s hs => ?_
    · rw [List.isEmpty_iff.1 hnil] at hs
      simpa [expr] using hs
    · simpa [expr, exprs_map_wrap] using hs

/-! ### Maps -/

theorem keyed_append (level : Nat) (ps : List (String × Expr)) (key : String) (e : Expr) :
    keyed level (ps ++ [(key, e)]) = keyed level ps ++ [ident key :: sign .colon :: expr level e] := by
  induction ps with
  | nil => rfl
  | cons q ps ih => rw [List.cons_append, keyed, keyed, ih, List.cons_append]

/-- In the middle of a pair, of which `elem` is copied. -/
def InPair (d : Draft) (σ : List Bool) (n : Nat) (p : Page) (c : Scribe) (level : Nat) (words : List Word)
    (layout : List LayoutItem) (elems : List (List Word)) (elem : List Word) (place : Place) (s : State) : Prop :=
  ∃ r : Item × List Word, Draws level .start layout elems r.2 r.1 ∧
    On d σ n (p.add (words ++ r.2 ++ (r.1.lead level ++ elem)) (c.goTo place)) s

theorem InPair.step {elem w : List Word} {place place' : Place}
    (h : InPair d σ n p c level words layout elems elem place s) (heof : s.cur.kind ≠ .eof)
    (hk : s.cur.kind ≠ .ws)
    (hstroke : stroke d.fn (c.goTo place) s.cur.kind s.cur.literal s.afterBlank = some (w, c.goTo place'))
    (hplace' : place' ≠ .start) :
    InPair d σ n p c level words layout elems (elem ++ w) place' s.advance := by
  obtain ⟨r, hdraws, hon⟩ := h
  have hstep := hon.step heof hk hstroke hplace'
  exact ⟨r, hdraws, by simpa using hstep.toOn.mono (Nat.le_succ _)⟩

theorem Drawn.key {fs : List LineFrame} (hframes : c.frames = .map level :: fs)
    (h : Drawn d σ n p c level words layout elems s) (hk : s.cur.kind = .ident) :
    InPair d σ n p c level words layout elems [ident s.cur.literal] .pairColon s.advance := by
  obtain ⟨r, hdraws, hitems⟩ := h
  have hstep := hitems.step (.inr ⟨fs, hframes⟩) (by rw [hk]; nofun) (by rw [hk]; nofun)
    (by rw [hk, elementStroke, hframes]) (e := c.goTo .pairColon) nofun
  exact ⟨r, hdraws, by simpa using hstep.toOn.mono (Nat.le_succ _)⟩

theorem value_writes {fs : List LineFrame} (hframes : c.frames = .map level :: fs) (hself : Writes d k self)
    (hk : k ≤ n) (key : String) :
    Gets (InPair d σ n p c level words layout elems [ident key, sign .colon] (.operand false .none))
      (spacedExpr self) fun e => Drawn d σ n p c level words (layout ++ [.element])
        (elems ++ [ident key :: sign .colon :: expr (level + 1) e]) := by
  have hc : InLiteral c level := .inr ⟨fs, hframes⟩
  have hlevel : c.exprLevel = level + 1 := by rw [Scribe.exprLevel, hframes]; rfl
  refine Parses.choose fun ⟨last, w⟩ => ?_
  have hvalue := spacedExpr_writes (σ := σ) (p := p.add (words ++ w ++ (last.lead level ++
    [ident key, sign .colon])) (c.goTo (.operand false .none))) (c := c) [] hself hk hc.spaced
  refine (hvalue.frame (φ := Draws level .start layout elems w last)).conseq ?_ ?_
  · rintro s ⟨hdraws, hon⟩
    refine ⟨hdraws, { hon with declared_eq := rfl, opens := fun hstart => ?_ }⟩
    exact stroke_operand (c := c.goTo (.operand false .none)) rfl hstart nofun nofun
  · rintro e s ⟨hdraws, hon, hset⟩
    rw [Page.add_add, hlevel] at hon
    exact .element hdraws (by simpa using hon.mono (Nat.le_succ _)) hset

theorem pairsWithin_writes {fs : List LineFrame} (hframes : c.frames = .map level :: fs) (hself : Writes d k self)
    (hk : k ≤ n) (fuel : Nat) (layout : Array LayoutItem) (pairs : Array (String × Expr)) :
    Gets (Drawn d σ n p c level words layout.toList (keyed (level + 1) pairs.toList))
      (pairsWithin self fuel layout pairs) fun r =>
        Drawn d σ n p c level words r.1 (keyed (level + 1) r.2) := by
  induction fuel generalizing layout pairs with
  | zero => exact .pure fun _ => id
  | succ fuel ih =>
    refine .lookThen fun token => ?_
    dsimp only
    split
    · exact .pure fun _ hs => hs.1
    · exact .pure fun _ hs => hs.1
    · next hk' =>
      refine .ifFail (.fail _) fun _ => .moveTo (Q := InPair d σ n p c level words layout.toList
        (keyed (level + 1) pairs.toList) [ident token.literal] .pairColon) State.moves_advance ?_ ?_
      · rintro s ⟨hs, rfl⟩
        exact hs.key hframes hk'
      refine Gets.bind (.require .colon (Q := fun _ s => InPair d σ n p c level words layout.toList
        (keyed (level + 1) pairs.toList) [ident token.literal] .pairColon s ∧ s.cur.kind = .colon)
        fun s hs hk => ⟨hs, hk⟩) fun _ => ?_
      refine .moveTo (Q := InPair d σ n p c level words layout.toList (keyed (level + 1) pairs.toList)
        [ident token.literal, sign .colon] (.operand false .none)) State.moves_advance ?_ ?_
      · rintro s ⟨hs, hcolon⟩
        exact hs.step (by rw [hcolon]; nofun) (by rw [hcolon]; nofun) (by rw [hcolon]; rfl)
          (w := [sign .colon]) nofun
      refine Gets.bind (value_writes hframes hself hk token.literal) fun e => ?_
      refine .liftBind ((layoutItems_writes (.inr ⟨fs, hframes⟩) (layout.push .element)).conseq
        (fun s hs => by simpa using hs) fun _ _ => id) fun layout' => ?_
      refine (ih layout' (pairs.push (token.literal, e))).conseq (fun s hs => ?_) fun _ _ => id
      rwa [Array.toList_push, keyed_append]
    · exact (Aborts.fail _).gets

theorem mapLiteral_writes (hself : Writes d k self) (hk : k ≤ n + 1) :
    Gets (fun s => AtOperand d σ n p c gap s ∧ s.cur.kind = .lCurly) (mapLiteral self)
      fun e s => Wrote d σ (n + 1) p c (gap ++ expr c.exprLevel e) s := by
  obtain ⟨c', hc'⟩ : ∃ c', c' = c.enter (.map c.exprLevel) (.element .start) := ⟨_, rfl⟩
  have hframes : c'.frames = .map c.exprLevel :: c.frames := by rw [hc']; rfl
  have hc : InLiteral c' c.exprLevel := .inr ⟨_, hframes⟩
  refine .withSpacing (S := fun e s => On d (false :: σ) (n + 1)
    (p.add (gap ++ expr c.exprLevel e) (c.goTo .operator)) s ∧ s.afterBlank = false) false
    (R := fun s => AtOperand d (false :: σ) n p c gap s ∧ s.cur.kind = .lCurly) ?_ ?_ fun e s hs => hs.1.pop hs.2
  · rintro s ⟨hs, hk⟩
    exact ⟨{ hs.toOn.pushSpacing false with declared_eq := hs.declared_eq, opens := hs.opens }, hk⟩
  refine .lookThen fun token => .moveTo (Q := Drawn d (false :: σ) (n + 1) p c' c.exprLevel
    (gap ++ [sign .lCurly]) [] [])
    State.moves_advance ?_ ?_
  · rintro s ⟨⟨hs, hk⟩, rfl⟩
    subst hc'
    exact .start (hs.step (by rw [hk]; rfl) (by rw [hk]; rfl)
      (e := c.enter (.map c.exprLevel) (.element .start)) nofun).toOn
  refine .liftBind (layoutItems_writes hc #[]) fun layout => .state fun t => ?_
  refine Gets.bind ((pairsWithin_writes hframes hself hk t.fuel layout #[]).conseq (fun _ hs => hs.1)
    fun _ _ => id) fun ⟨layout, pairs⟩ => ?_
  refine Gets.bind (.require .rCurly (Q := fun _ s => Drawn d (false :: σ) (n + 1) p c' c.exprLevel
    (gap ++ [sign .lCurly]) layout (keyed (c.exprLevel + 1) pairs) s ∧ s.cur.kind = .rCurly)
    fun s hs hk => ⟨hs, hk⟩) fun _ => ?_
  refine .moveTo (Q := fun s => On d (false :: σ) (n + 1) (p.add (gap ++ literal c.exprLevel .lCurly .rCurly layout
    (keyed (c.exprLevel + 1) pairs)) (c.goTo .operator)) s ∧ s.afterBlank = false) State.moves_advanceOne ?_ ?_
  · rintro s ⟨⟨r, hdraws, hitems⟩, hk⟩
    obtain ⟨hon, htight⟩ := hitems.stepOne hc (by rw [hk]; nofun) (by rw [hk]; nofun) (e := c'.leaveTo c.frames)
      (w := r.1.back c.exprLevel ++ [sign .rCurly]) (by rw [hk, elementStroke, hframes]) nofun
    refine ⟨?_, htight⟩
    rw [← Drawn.words_eq hdraws]
    subst hc'
    have hgoTo : (c.enter (.map c.exprLevel) (.element .start)).leaveTo c.frames = c.goTo .operator := rfl
    simpa [hgoTo] using hon.mono (Nat.le_succ _)
  · refine .ite (fun hnil => .pure fun s hs => ?_) fun _ => .pure fun s hs => ?_
    · rw [List.isEmpty_iff.1 hnil] at hs
      simpa [expr] using hs
    · simpa [expr, keyed_map_wrap] using hs

end TinyScript.Parsing
