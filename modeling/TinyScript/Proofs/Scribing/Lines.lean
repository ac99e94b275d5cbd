import TinyScript.Proofs.Scribing.Expressions
import TinyScript.Proofs.Scribing.Rows

/-!
# Copies of lines

Where a line ends the scribe ends its row. What the parser leaves out after the end of a block the scribe
leaves out as well.
-/

namespace TinyScript.Layout
open Word

@[simp] theorem Scribe.nextLine_goTo (c : Scribe) (place : Place) : (c.goTo place).nextLine = c.nextLine := rfl

theorem closesOperand_of_endsLine {kind : TokenKind} (h : endsLine kind) : closesOperand kind := by
  cases kind <;> first | rfl | cases h

theorem closingStroke_nil {c : Scribe} {kind : TokenKind} {literal : String} (hframes : c.frames = [])
    (hk : endsLine kind) : closingStroke c kind literal c.frames = finishStroke c kind literal := by
  have hassign : kind ≠ .assign := by rintro rfl; cases hk
  have hc : { c with frames := [] } = c := by rw [← hframes]
  rw [hframes, closingStroke, if_neg hassign, hc]

/-- A scribe that ends its line as `c` does. -/
structure Finishes (fn : String → Bool) (c c' : Scribe) : Prop where
  kind : c'.kind = c.kind
  finish : ∀ kind literal blank, endsLine kind → stroke fn c' kind literal blank = finishStroke c kind literal

theorem Ready.finishes {fn : String → Bool} {c c' : Scribe} (h : Ready fn c c') (hframes : c.frames = []) :
    Finishes fn c c' :=
  ⟨h.kind, fun kind literal blank hk =>
    (h.close kind literal blank (closesOperand_of_endsLine hk)).trans (closingStroke_nil hframes hk)⟩

/-- At a place where only the end of the line can follow. -/
theorem Finishes.finish_place (fn : String → Bool) {c : Scribe} (hplace : c.place = .finish) : Finishes fn c c :=
  ⟨rfl, fun _ _ _ _ => by simp only [stroke, hplace]⟩

/-- After the arguments of the line's statement. -/
theorem Finishes.arguments (fn : String → Bool) {c : Scribe} (hframes : c.frames = []) (place : Place) :
    Finishes fn c ((c.enter .args place).goTo .operator) := by
  refine ⟨rfl, fun kind literal blank hk => ?_⟩
  rw [stroke_end (c := (c.enter .args place).goTo .operator) rfl (.inl (by cases kind <;> first | rfl | cases hk)) rfl,
    betweenStroke_close (show ((c.enter .args place).goTo .operator).frames = [.args] from congrArg
      (LineFrame.args :: ·) hframes)
      (closesOperand_of_endsLine hk)]
  have hc : closingStroke ((c.enter .args place).goTo .operator) kind literal [] = closingStroke c kind literal [] :=
    closingStroke_goTo
  rw [hc, ← hframes, closingStroke_nil hframes hk]

end TinyScript.Layout

namespace TinyScript.Parsing
open Layout Word

variable {d : Draft} {σ : List Bool} {n m level : Nat} {inBody : Bool} {p q : Page} {c c' : Scribe}
  {words w : List Word} {rows : List Row} {s : State}

/-! ### The end of a line -/

theorem toLineEnd_of_end (s : State) (h : s.cur.kind = .nl ∨ s.cur.kind = .eof) : s.toLineEnd = s := by
  unfold State.toLineEnd
  cases s.tokens.size - s.pos with
  | zero => rfl
  | succ fuel =>
    unfold State.lineEndFrom
    split
    · rfl
    · rfl
    · next hnl heof => exact (h.elim hnl heof).elim

theorem nextLine_of_nl (s : State) (h : s.cur.kind = .nl) : s.nextLine = s.advance := by
  unfold State.nextLine
  rw [toLineEnd_of_end s (.inl h)]
  exact if_pos h

theorem nextLine_of_eof (s : State) (h : s.cur.kind = .eof) : s.nextLine = s := by
  unfold State.nextLine
  rw [toLineEnd_of_end s (.inr h)]
  exact if_neg (by rw [h]; nofun)

namespace Within
variable {declared : List String}

/-- The end of the line does not change on the way to it. -/
theorem toLineEnd_advanceOne (h : Within d σ n declared s) (heof : s.cur.kind ≠ .eof) (hnl : s.cur.kind ≠ .nl) :
    s.advanceOne.toLineEnd = s.toLineEnd := by
  have hlt : s.pos < s.tokens.size := h.tokens ▸ h.lt_size heof
  have hfuel : s.tokens.size - s.pos = s.tokens.size - (s.pos + 1) + 1 := by omega
  have hstep : s.lineEndFrom (s.tokens.size - s.pos) s.pos =
      s.lineEndFrom (s.tokens.size - (s.pos + 1)) (s.pos + 1) := by
    rw [hfuel, State.lineEndFrom]
    split
    · next hk => exact absurd hk hnl
    · next hk => exact absurd hk heof
    · rfl
  have hsame (fuel i : Nat) : s.advanceOne.lineEndFrom fuel i = s.lineEndFrom fuel i := by
    have htokens (i : Nat) : s.advanceOne.tokenAt i = s.tokenAt i := by
      rw [h.advanceOne.tokenAt, h.tokenAt]
    induction fuel generalizing i with
    | zero => rfl
    | succ fuel ih =>
      rw [State.lineEndFrom, State.lineEndFrom, htokens]
      split <;> first | rfl | exact ih _
  have hpos : s.advanceOne = { s with pos := s.pos + 1 } := by rw [State.advanceOne, if_pos hlt]
  unfold State.toLineEnd
  rw [hsame, hstep, hpos]

theorem nextLine_advanceOne (h : Within d σ n declared s) (heof : s.cur.kind ≠ .eof) (hnl : s.cur.kind ≠ .nl) :
    s.advanceOne.nextLine = s.nextLine := by
  unfold State.nextLine
  rw [h.toLineEnd_advanceOne heof hnl]

/-- Where blanks do not separate expressions, none comes next. -/
theorem cur_advance_ne (h : Within d σ n declared s) (hsp : σ.headD false = false) : s.advance.cur.kind ≠ .ws := by
  rw [h.advance_of_unspaced hsp]
  unfold State.skipBlank
  split
  · next hk =>
    have heof : s.advanceOne.cur.kind ≠ .eof := by rw [hk]; nofun
    rw [h.advanceOne.advanceOne.cur, h.advanceOne.pos_advanceOne heof]
    rw [h.advanceOne.cur] at hk
    exact d.blank_last _ hk
  · next hk => exact hk

end Within

/-! ### Whole rows -/

/-- All tokens up to the end of input are copied on the page. -/
def Complete (d : Draft) (p : Page) : Prop :=
  ∃ j q words c, Copied d j q ∧ (d.tokenAt j).kind = .eof ∧
    stroke d.fn q.scribe .eof (d.tokenAt j).literal (d.afterBlank j) = some (words, c) ∧ p = q.write words c

/-- The tokens before the current one are copied on the page, the end of input also if it is the current one. -/
structure Whole (d : Draft) (σ : List Bool) (n : Nat) (p : Page) (s : State) : Prop extends
    Within d σ n p.scribe.declared s where
  copied : Copied d s.pos p ∨ (s.cur.kind = .eof ∧ Complete d p)

theorem Whole.mono (h : Whole d σ n p s) (hm : m ≤ n) : Whole d σ m p s :=
  { h with toWithin := h.toWithin.mono hm }

theorem On.whole (h : On d σ n p s) : Whole d σ n p s :=
  { h with copied := .inl h.copied }

theorem Whole.on (h : Whole d σ n p s) (heof : s.cur.kind ≠ .eof) : On d σ n p s :=
  { h with copied := h.copied.resolve_right fun h => heof h.1 }

/-- The end of a line is copied. -/
theorem On.endRow (h : On d σ n q s) (hk : s.cur.kind = .nl)
    (hstroke : ∀ literal blank, stroke d.fn q.scribe .nl literal blank = some ([newline], c)) (hc : c.place = .start) :
    Whole d σ n (q.newRow [newline] c) s.advance := by
  have hon := h.advance (by rw [hk]; nofun) (by rw [hk]; nofun) (by rw [hk]; exact hstroke _ _)
  rw [Page.write_eq_newRow hc] at hon
  exact hon.whole.mono (Nat.le_succ _)

theorem On.complete (h : On d σ n q s) (hk : s.cur.kind = .eof)
    (hstroke : ∀ literal blank, stroke d.fn q.scribe .eof literal blank = some ([newline], c)) (hc : c.place = .start) :
    Complete d (q.newRow [newline] c) :=
  ⟨s.pos, q, _, c, h.copied, h.cur ▸ hk, hstroke _ _, (Page.write_eq_newRow hc).symm⟩

theorem On.newRow (h : On d σ n q s) (hk : s.cur.kind = .nl ∨ s.cur.kind = .eof)
    (hstroke : ∀ kind, kind = .nl ∨ kind = .eof → ∀ literal blank,
      stroke d.fn q.scribe kind literal blank = some ([newline], c))
    (hdeclared : c.declared = q.scribe.declared) (hc : c.place = .start) :
    Whole d σ n (q.newRow [newline] c) s.nextLine := by
  rcases hk with hk | hk
  · rw [nextLine_of_nl s hk]
    exact h.endRow hk (hstroke _ (.inl rfl)) hc
  · rw [nextLine_of_eof s hk]
    exact { h.toWithin.weaken (hdeclared ▸ List.Subset.refl _) with
      copied := .inr ⟨hk, h.complete hk (hstroke _ (.inr rfl)) hc⟩ }

/-- The rest of a line that is left out is not copied. -/
theorem On.rest (h : On d σ n q s) (hplace : q.scribe.place = .rest) :
    Whole d σ n (q.newRow [newline] q.scribe.nextLine) s.nextLine := by
  obtain ⟨left, hleft⟩ : ∃ left, left = d.tokens.size - s.pos := ⟨_, rfl⟩
  induction left generalizing s with
  | zero =>
    have heof : s.cur.kind = .eof := Decidable.byContradiction fun heof => by
      have := h.lt_size heof
      omega
    refine h.newRow (.inr heof) (fun kind hk literal blank => ?_) rfl rfl
    rcases hk with rfl | rfl <;> simp [stroke, hplace]
  | succ left ih =>
    by_cases hend : s.cur.kind = .nl ∨ s.cur.kind = .eof
    · refine h.newRow hend (fun kind hk literal blank => ?_) rfl rfl
      rcases hk with rfl | rfl <;> simp [stroke, hplace]
    · obtain ⟨hnl, heof⟩ := not_or.1 hend
      rw [← h.nextLine_advanceOne heof hnl]
      have hpos := h.pos_advanceOne heof
      by_cases hws : s.cur.kind = .ws
      · have hskip := h.skipBlank
        rw [State.skipBlank, if_pos hws] at hskip
        exact ih hskip (by omega)
      · have hone := h.advanceOne heof hws (w := []) (c := q.scribe) (by simp [stroke, hplace, hnl, heof])
        have hq : q.write [] q.scribe = q := by
          rw [Page.write_eq_add (by simp [hplace]), Page.add, List.append_nil]
        rw [hq] at hone
        exact ih (hone.mono (Nat.le_succ _)) (by omega)

theorem comment?_eq_none (h : s.cur.kind ≠ .comment) : s.comment? = none :=
  if_neg h

/-- A line ends with a comment or without one. -/
theorem On.finish (words : List Word) (h : On d σ n (p.add words c') s) (hfin : Finishes d.fn c c')
    (hdeclared : c'.declared = c.declared)
    (hend : s.atLineEnd) :
    Whole d σ n (⟨p.rows ++ [⟨p.line ++ words ++ trailing s.comment? ++ [newline], c.kind⟩], [], c.nextLine⟩)
    s.nextLine := by
  by_cases hk : s.cur.kind = .comment
  · have heof : s.cur.kind ≠ .eof := by rw [hk]; nofun
    have hnl : s.cur.kind ≠ .nl := by rw [hk]; nofun
    have hstroke := hfin.finish s.cur.kind s.cur.literal s.afterBlank (by rw [hk]; rfl)
    obtain ⟨hone, -⟩ := h.stepOne heof (by rw [hk]; nofun) (hstroke.trans (by rw [hk]; rfl)) (c := c.goTo .closed) nofun
    have hlast : s.advanceOne.cur.kind = .nl ∨ s.advanceOne.cur.kind = .eof := by
      rw [hone.cur, h.pos_advanceOne heof]
      exact d.comment_last s.pos (by rw [h.cur] at hk; exact hk)
    rw [← h.nextLine_advanceOne heof hnl]
    have hwhole := hone.newRow hlast (c := c.nextLine) (fun kind hk literal blank => by
      rcases hk with rfl | rfl <;> rfl) rfl rfl
    have hcomment : s.comment? = some s.cur.literal := if_pos hk
    simpa [Page.newRow, Page.add, hcomment, trailing, Scribe.goTo] using hwhole.mono (Nat.le_succ _)
  · have hends : s.cur.kind = .nl ∨ s.cur.kind = .eof := by
      unfold State.atLineEnd at hend
      split at hend
      · next h => exact .inl h
      · next h => exact .inr h
      · next h => exact absurd h hk
      · cases hend
    have hwhole := h.newRow hends (c := c.nextLine) (fun kind hk literal blank => by
      rw [Page.add_scribe, hfin.finish kind literal blank (by rcases hk with rfl | rfl <;> rfl)]
      rcases hk with rfl | rfl <;> rfl) (by simpa [Scribe.nextLine, Scribe.atLine] using hdeclared.symm) rfl
    simpa [Page.newRow, Page.add, comment?_eq_none hk, trailing, hfin.kind] using hwhole

/-- After the end of a block the rest of the line is left out, apart from a comment that comes first. -/
theorem On.ended (h : On d σ n (p.add words c) s) (hplace : c.place = .ended) (hws : s.cur.kind ≠ .ws) :
    Whole d σ n (⟨p.rows ++ [⟨p.line ++ words ++ trailing s.comment? ++ [newline], c.kind⟩], [], c.nextLine⟩)
    s.nextLine := by
  by_cases hend : s.atLineEnd
  · refine h.finish words ⟨rfl, fun kind literal blank hk => ?_⟩ rfl hend
    simp only [stroke, hplace]
    cases kind <;> first | rfl | cases hk
  · have hkinds : s.cur.kind ≠ .nl ∧ s.cur.kind ≠ .eof ∧ s.cur.kind ≠ .comment := by
      refine ⟨fun hk => hend ?_, fun hk => hend ?_, fun hk => hend ?_⟩ <;> simp [State.atLineEnd, hk]
    obtain ⟨hnl, heof, hcomment⟩ := hkinds
    have hstroke : stroke d.fn c s.cur.kind s.cur.literal s.afterBlank = some ([], c.goTo .rest) := by
      simp only [stroke, hplace, endedStroke]
    obtain ⟨hone, -⟩ := h.stepOne heof hws hstroke (by simp)
    have hwhole := hone.rest rfl
    rw [← h.nextLine_advanceOne heof hnl, comment?_eq_none hcomment]
    have hkind : (c.goTo .rest).kind = c.kind := rfl
    simpa [Page.newRow, Page.add, trailing, hkind] using hwhole.mono (Nat.le_succ _)

/-! ### Lines -/

/-- No function has the name of a variable that is declared in the program. -/
def Plain (d : Draft) (declared : List String) : Prop :=
  ∀ name ∈ declared, d.fn name → name ∈ d.first.scribe.declared

theorem Plain.cons {declared : List String} {name : String} (h : Plain d declared) (hname : d.fn name = false) :
    Plain d (name :: declared) := by
  intro x hx hfn
  rcases List.mem_cons.1 hx with rfl | hx
  · rw [hname] at hfn
    cases hfn
  · exact h x hx hfn

/-- A page with whole rows. -/
def blankPage (rows : List Row) (level : Nat) (inBody : Bool) (declared : List String) : Page :=
  ⟨rows, [], .atLine level inBody declared⟩

/-- Whole lines are copied in rows, and the next line is at a level. -/
def Lines (d : Draft) (σ : List Bool) (n level : Nat) (inBody : Bool) (rows : List Row) (s : State) : Prop :=
  ∃ declared, Plain d declared ∧ Whole d σ n (blankPage rows level inBody declared) s

theorem Lines.mono (h : Lines d σ n level inBody rows s) (hm : m ≤ n) : Lines d σ m level inBody rows s := by
  obtain ⟨declared, hplain, hwhole⟩ := h
  exact ⟨declared, hplain, hwhole.mono hm⟩

theorem On.lines (h : On d σ n (p.add words c') s) (hfin : Finishes d.fn c c') (hdeclared : c'.declared = c.declared)
    (hend : s.atLineEnd) (hline : p.line = []) (hplain : Plain d c.declared) :
    Lines d σ n c.nextLevel c.nextInBody (p.rows ++ [⟨words ++ trailing s.comment? ++ [newline], c.kind⟩])
      s.nextLine := by
  have hwhole := h.finish words hfin hdeclared hend
  rw [hline, List.nil_append] at hwhole
  exact ⟨c.declared, hplain, hwhole⟩

end TinyScript.Parsing
