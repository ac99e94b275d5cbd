import TinyScript.Proofs.Scribing.Copying
import TinyScript.Proofs.Scribing.Joints
import TinyScript.Proofs.Text.Trimming

/-!
# Rows by their strokes

The rows of a page that tokens of a source are copied on are drawn with one stroke after the other. Blank rows
can be drawn anywhere between them.
-/

namespace TinyScript.Layout
open Word

/-! ### Words -/

/-- How an infinite number is written. It is not scanned as a number again. -/
def infinity : Word :=
  token .numLit "+Inf"

/-- The kind of the token that a word is scanned as. -/
def wordKind : Word → TokenKind
  | token kind _ => kind
  | blank _ => .ws

/-- The kind of the last of some words on a line. -/
def lastWordKind (words : List Word) : TokenKind :=
  (words.getLast?.map wordKind).getD .nl

/-- Whether a word is scanned again. Numbers are also read again. -/
def Sound : Word → Prop
  | token kind literal => token kind literal = infinity ∨ (kind.Spells literal ∧ Legible kind literal)
  | blank _ => True

/-- What is read from a number, unless it is infinite, is read again from what it is written as. -/
def ReadsBack (literal : String) : Prop :=
  ∀ x, Decimal.readFloat? literal = some x → Number.text x = "+Inf" ∨
    (TokenKind.numLit.Spells (Number.text x) ∧ Decimal.readFloat? (Number.text x) = some x)

/-- A token of a source, or its end. -/
structure Faithful (kind : TokenKind) (literal : String) : Prop where
  spells : kind = .eof ∨ kind.Spells literal
  number : kind = .numLit → ReadsBack literal

section
variable {kind kind' last : TokenKind} {literal literal' : String} {words w gap : List Word} {c c' : Scribe}

@[simp] theorem lastWordKind_concat (words : List Word) (kind : TokenKind) (literal : String) :
    lastWordKind (words ++ [token kind literal]) = kind := by
  simp [lastWordKind, wordKind]

theorem Copies.ne_ws (h : Copies kind literal kind' literal') : kind' ≠ .ws := by
  cases h with
  | same h => rcases h with rfl | rfl <;> nofun
  | sign h => rintro rfl; cases h
  | comment | number | lineEnd | colon => nofun

theorem spells_trim (h : TokenKind.comment.Spells literal) : TokenKind.comment.Spells (Text.trim literal) := by
  obtain ⟨cs, hchars, hline⟩ := h
  have hslash : Text.isBlank '/' = false := rfl
  have hsub : cs.rdropWhile Text.isBlank ⊆ cs := List.IsPrefix.subset <| List.rdropWhile_prefix _ _
  refine ⟨cs.rdropWhile Text.isBlank, ?_, fun hmem => hline (hsub hmem)⟩
  rw [Text.trim, String.toList_ofList, hchars, Text.trimWhere_cons hslash, Text.rdropWhile_cons hslash]

theorem Copies.sound (h : Copies kind literal kind' literal') (hfaithful : Faithful kind literal) :
    Sound (token kind' literal') := by
  obtain ⟨hspells, hnumber⟩ := hfaithful
  cases h with
  | same h =>
    rcases h with rfl | rfl
    · exact .inr ⟨hspells.resolve_left nofun, nofun⟩
    · exact .inr ⟨trivial, nofun⟩
  | sign h => exact .inr ⟨(TokenKind.spells_iff_of_isFixed h).2 rfl, by rintro rfl; cases h⟩
  | comment h =>
    subst h
    exact .inr ⟨spells_trim (hspells.resolve_left nofun), nofun⟩
  | number h hx =>
    rcases hnumber h _ hx with hinfinite | ⟨hspells, hread⟩
    · exact .inl (by rw [hinfinite]; rfl)
    · exact .inr ⟨hspells, fun _ => ⟨_, hread, rfl⟩⟩
  | lineEnd => exact .inr ⟨rfl, nofun⟩
  | colon => exact .inr ⟨rfl, nofun⟩

theorem Scribe.After.place (h : c.After kind) : c.place.after kind := by
  unfold Scribe.After at h
  split at h
  · next hplace =>
    rw [hplace, h.1]
    rfl
  · exact h

theorem Scribe.After.atLine (h : c.After kind) (hplace : c.place = .start) :
    kind = .nl ∧ c = .atLine c.level c.inBody c.declared := by
  unfold Scribe.After at h
  rw [hplace] at h
  exact h

/-! ### Lines -/

/-- Words that can stand next to each other. -/
abbrev Jointed (words : List Word) : Prop :=
  words.IsChain fun w w' => (wordKind w).runsInto (wordKind w') = false

theorem Penned.jointed {last : TokenKind} {r : List Word × Scribe} (h : Penned last kind literal r)
    (hwords : Jointed words)
    (hlast : last = lastWordKind words) : Jointed (words ++ r.1) := by
  cases h with
  | nothing => rwa [List.append_nil]
  | @token gap kind' literal' c hgap hjoin hcopy =>
    have hends : Jointed (gap ++ [Word.token kind' literal']) := by
      rcases hgap with rfl | ⟨n, rfl⟩
      · exact .singleton _
      · refine .cons_cons ?_ (.singleton _)
        show (kind' == .ws) = false
        exact beq_eq_false_iff_ne.2 hcopy.ne_ws
    refine List.IsChain.append hwords hends fun x hx y hy => ?_
    have hx : wordKind x = last := by
      rw [hlast, lastWordKind, hx]
      rfl
    rw [hx]
    rcases hgap with rfl | ⟨n, rfl⟩
    · cases hy
      exact hjoin
    · cases hy
      exact hjoin

theorem Penned.ne_nil (h : Penned last kind literal (w, c)) (hc : c.place = .start) : w ≠ [] := by
  generalize hr : (w, c) = r at h
  cases h with
  | nothing _ _ hne => exact absurd hc ((Prod.mk.inj hr).2 ▸ hne)
  | token =>
    rw [(Prod.mk.inj hr).1]
    exact List.append_ne_nil_of_right_ne_nil _ (List.cons_ne_nil _ _)

theorem Penned.sound {last : TokenKind} {r : List Word × Scribe} (h : Penned last kind literal r)
    (hfaithful : Faithful kind literal) :
    ∀ w ∈ r.1, Sound w := by
  cases h with
  | nothing => exact fun w hw => absurd hw List.not_mem_nil
  | @token gap kind' literal' c hgap hjoin hcopy =>
    intro w hw
    rcases List.mem_append.1 hw with hw | hw
    · rcases hgap with rfl | ⟨n, rfl⟩
      · cases hw
      · rw [List.mem_singleton.1 hw]
        trivial
    · rw [List.mem_singleton.1 hw]
      exact hcopy.sound hfaithful

end

variable {fn : String → Bool} {c₀ c c' : Scribe} {words : List Word} {r : Row} {rows : List Row}

/-- A stroke for a token of a source, on a line with some words. -/
structure Strikes (fn : String → Bool) (words : List Word) (c : Scribe) (kind : TokenKind) (literal : String)
    (blank : Bool)
    (w : List Word) (c' : Scribe) : Prop where
  stroke : stroke fn c kind literal blank = some (w, c')
  penned : Penned (lastWordKind words) kind literal (w, c')
  faithful : Faithful kind literal

/-- Words that are drawn on a line from its start on. -/
inductive LineDrawn (fn : String → Bool) (c₀ : Scribe) : List Word → Scribe → Prop where
  | nil : LineDrawn fn c₀ [] c₀
  | stroke {words w : List Word} {c c' : Scribe} {kind : TokenKind} {literal : String} {blank : Bool}
    (h : LineDrawn fn c₀ words c) (hstrikes : Strikes fn words c kind literal blank w c') (hline : c'.place ≠ .start) :
    LineDrawn fn c₀ (words ++ w) c'

/-- A row that is drawn to its end. -/
inductive RowDrawn (fn : String → Bool) (c₀ : Scribe) : Row → Scribe → Prop where
  | row {words w : List Word} {c c' : Scribe} {kind : TokenKind} {literal : String} {blank : Bool}
    (h : LineDrawn fn c₀ words c) (hstrikes : Strikes fn words c kind literal blank w c') (hline : c'.place = .start) :
    RowDrawn fn c₀ ⟨words ++ w, c.kind⟩ c'

/-- Rows that are drawn one after the other. -/
inductive RowsDrawn (fn : String → Bool) : Scribe → List Row → Scribe → Prop where
  | nil (c : Scribe) : RowsDrawn fn c [] c
  | cons {c c₁ c' : Scribe} {r : Row} {rows : List Row} (h : RowDrawn fn c r c₁) (hrest : RowsDrawn fn c₁ rows c') :
    RowsDrawn fn c (r :: rows) c'

theorem LineDrawn.after (h : LineDrawn fn c₀ words c) (hc₀ : c₀.place = .start) :
    c.place.after (lastWordKind words) := by
  induction h with
  | nil =>
    rw [hc₀]
    rfl
  | stroke h hstrikes hline ih =>
    obtain ⟨hstroke, hpen, -⟩ := hstrikes
    cases hpen with
    | nothing hafter =>
      rw [List.append_nil]
      exact hafter
    | token hgap hjoin hcopy hafter =>
      rw [← List.append_assoc, lastWordKind_concat]
      exact hafter.place

theorem LineDrawn.jointed (h : LineDrawn fn c₀ words c) : Jointed words ∧ ∀ w ∈ words, Sound w := by
  induction h with
  | nil => exact ⟨.nil, fun w hw => absurd hw List.not_mem_nil⟩
  | stroke h hstrikes hline ih =>
    refine ⟨hstrikes.penned.jointed ih.1 rfl, fun w hw => ?_⟩
    exact (List.mem_append.1 hw).elim (ih.2 w) (hstrikes.penned.sound hstrikes.faithful w)

theorem RowDrawn.jointed (h : RowDrawn fn c₀ r c) : Jointed r.words ∧
    (∀ w ∈ r.words, Sound w) ∧ lastWordKind r.words = .nl ∧
    c = .atLine c.level c.inBody c.declared := by
  cases h with
  | row h hstrikes hline =>
    obtain ⟨hjointed, hsound⟩ := h.jointed
    refine ⟨hstrikes.penned.jointed hjointed rfl, fun w hw => ?_, ?_⟩
    · exact (List.mem_append.1 hw).elim (hsound w) (hstrikes.penned.sound hstrikes.faithful w)
    · obtain ⟨hstroke, hpen, -⟩ := hstrikes
      cases hpen with
      | nothing _ _ hstart => exact absurd hline hstart
      | token hgap hjoin hcopy hafter =>
        obtain ⟨rfl, hc⟩ := hafter.atLine hline
        refine ⟨?_, hc⟩
        show lastWordKind (_ ++ _) = _
        rw [← List.append_assoc, lastWordKind_concat]

/-! ### Blank rows -/

theorem startStroke_ne_nil {kind : TokenKind} {literal : String} {r : List Word × Scribe}
    (h : startStroke c kind literal = some r) : r.1 ≠ [] := by
  cases kind <;> cases h <;> first | exact List.append_ne_nil_of_right_ne_nil _ (List.cons_ne_nil _ _) | nofun

theorem startStroke_newline {kind : TokenKind} {literal : String}
    (h : startStroke c kind literal = some ([newline], c')) :
    c' = .atLine c.level c.inBody c.declared := by
  have hne {gap : List Word} {w : Word} (h : gap ++ [w] = [newline]) (hw : w ≠ newline) : False := by
    cases gap with
    | nil => exact hw (List.head_eq_of_cons_eq h)
    | cons => simp at h
  cases kind
  case nl =>
    cases h
    rfl
  case comment => exact (hne (Prod.mk.inj (Option.some.inj h)).1 nofun).elim
  case ident | «return» | «break» | «if» | «while» | «for» | «else» | «end» | func | on =>
    exact (hne (Prod.mk.inj (Option.some.inj h)).1 nofun).elim
  all_goals cases h

theorem LineDrawn.of_nil (h : LineDrawn fn c₀ words c) (hc₀ : c₀.place = .start) (hwords : words = []) : c = c₀ := by
  induction h with
  | nil => rfl
  | stroke h hstrikes hline ih =>
    obtain ⟨hwords, hw⟩ := List.append_eq_nil_iff.1 hwords
    obtain rfl := ih hwords
    have hstroke := hstrikes.stroke
    simp only [Layout.stroke, hc₀] at hstroke
    exact absurd hw (startStroke_ne_nil hstroke)

theorem RowDrawn.blank (h : RowDrawn fn c₀ blankRow c) (hc₀ : c₀ = .atLine c₀.level c₀.inBody c₀.declared) :
    c = c₀ := by
  generalize hr : blankRow = r at h
  cases h with
  | @row words w c₁ c' kind literal blank h hstrikes hline =>
    have hwords : [newline] = words ++ w := congrArg Row.words hr
    have hstart : c₀.place = .start := by rw [hc₀]; rfl
    rcases List.append_eq_singleton_iff.1 hwords.symm with ⟨rfl, rfl⟩ | ⟨rfl, rfl⟩
    · obtain rfl := h.of_nil hstart rfl
      have hstroke := hstrikes.stroke
      simp only [Layout.stroke, hstart] at hstroke
      exact (startStroke_newline hstroke).trans hc₀.symm
    · exact absurd rfl (hstrikes.penned.ne_nil hline)

theorem rowDrawn_blankRow (hc : c = .atLine c.level c.inBody c.declared) : RowDrawn fn c blankRow c := by
  have hstroke : Layout.stroke fn c .nl "" false = some ([newline], c) := by
    rw [hc]
    rfl
  have hrow : RowDrawn fn c ⟨[] ++ [newline], c.kind⟩ c := .row .nil
    ⟨hstroke, by rw [hc]; exact .lineEnd (.inl rfl) _ _ _, .inr rfl, nofun⟩ (by rw [hc]; rfl)
  have hkind : c.kind = .blank := by rw [hc]; rfl
  rwa [hkind] at hrow

/-- Rows that are drawn are also drawn in their layout. -/
theorem RowsDrawn.tidy (h : RowsDrawn fn c rows c') (hc : c = .atLine c.level c.inBody c.declared)
    (hblank : ∀ r ∈ rows, r.kind = .blank → r = blankRow) (afterBlank : Bool) :
    RowsDrawn fn c (Layout.tidy afterBlank rows) c' := by
  induction h generalizing afterBlank with
  | nil => exact .nil _
  | @cons c c₁ c' r rows hrow hrest ih =>
    obtain ⟨hr, hrows⟩ := List.forall_mem_cons.1 hblank
    have hc₁ := hrow.jointed.2.2.2
    rw [Layout.tidy]
    split
    · next hk =>
      obtain rfl := hr hk
      obtain rfl := hrow.blank hc
      split
      · exact ih hc₁ hrows true
      · exact .cons hrow (ih hc₁ hrows true)
    · refine .cons hrow ?_
      split
      · exact .cons (rowDrawn_blankRow hc₁) (ih hc₁ hrows false)
      · exact ih hc₁ hrows false

/-! ### Pages -/

theorem RowsDrawn.concat (h : RowsDrawn fn c₀ rows c) (hrow : RowDrawn fn c r c') :
    RowsDrawn fn c₀ (rows ++ [r]) c' := by
  induction h with
  | nil => exact .cons hrow (.nil _)
  | cons hfirst _ ih => exact .cons hfirst (ih hrow)

/-- A page that is drawn from a scribe at the start of a line on. -/
def PageDrawn (fn : String → Bool) (c₀ : Scribe) (p : Page) : Prop :=
  ∃ c, RowsDrawn fn c₀ p.rows c ∧ c.place = .start ∧ LineDrawn fn c p.line p.scribe

theorem PageDrawn.write {p : Page} {kind : TokenKind} {literal : String} {blank : Bool} {w : List Word}
    (h : PageDrawn fn c₀ p) (hstrikes : Strikes fn p.line p.scribe kind literal blank w c') :
    PageDrawn fn c₀ (p.write w c') := by
  obtain ⟨c, hrows, hc, hline⟩ := h
  unfold Page.write
  split
  · next hplace => exact ⟨c', hrows.concat (.row hline hstrikes hplace), hplace, .nil⟩
  · next hplace => exact ⟨c, hrows, hc, .stroke hline hstrikes hplace⟩

end TinyScript.Layout

namespace TinyScript.Parsing
open Layout Word

/-- The tokens are those of a source. -/
structure Draft.Sourced (d : Draft) : Prop where
  faithful : ∀ i, (d.tokenAt i).kind ≠ .ws → Faithful (d.tokenAt i).kind (d.tokenAt i).literal
  beside : ∀ i, (d.tokenAt i).kind ≠ .eof → (d.tokenAt i).Beside (d.tokenAt (i + 1))

variable {d : Draft} {i : Nat} {p : Page} {words : List Word} {c : Scribe}

/-- The last word before an index is the token there, where that matters. -/
def Continues (d : Draft) (i : Nat) (p : Page) : Prop :=
  d.afterBlank i = false → p.scribe.place.adjoins →
    ∃ j, i = j + 1 ∧ (d.tokenAt j).kind ≠ .eof ∧ lastWordKind p.line = (d.tokenAt j).kind

/-- A stroke for a token of a source. -/
theorem Draft.Sourced.strikes (hd : d.Sourced) (h : PageDrawn d.fn d.first.scribe p) (hcontinues : Continues d i p)
    (hk : (d.tokenAt i).kind ≠ .ws)
    (hstroke : stroke d.fn p.scribe (d.tokenAt i).kind (d.tokenAt i).literal (d.afterBlank i) = some (words, c)) :
    Strikes d.fn p.line p.scribe (d.tokenAt i).kind (d.tokenAt i).literal (d.afterBlank i) words c := by
  obtain ⟨c₁, -, hc₁, hline⟩ := h
  refine ⟨hstroke, stroke_penned (hline.after hc₁) (fun hadjoins hblank hlast => ?_) hstroke, hd.faithful i hk⟩
  obtain ⟨j, rfl, heof, hkind⟩ := hcontinues hblank hadjoins
  rw [hkind] at hlast ⊢
  exact (hd.beside j heof).runsInto hlast

/-- What is copied is drawn. -/
theorem Copied.drawn (h : Copied d i p) (hd : d.Sourced) (hfirst : PageDrawn d.fn d.first.scribe d.first)
    (hstart : d.first.scribe.place = .start) : PageDrawn d.fn d.first.scribe p ∧ Continues d i p := by
  induction h with
  | start => exact ⟨hfirst, fun _ h => by rw [hstart] at h; cases h⟩
  | @blank i p h hk ih =>
    refine ⟨ih.1, fun hblank => ?_⟩
    rw [Draft.afterBlank, if_neg (Nat.succ_ne_zero i), Nat.add_sub_cancel, hk] at hblank
    cases hblank
  | @token i p words c h heof hk hstroke ih =>
    have hstrikes := hd.strikes ih.1 ih.2 hk hstroke
    refine ⟨ih.1.write hstrikes, fun _ hadjoins => ⟨i, rfl, heof, ?_⟩⟩
    rw [Page.write_scribe] at hadjoins
    have hplace : c.place ≠ .start := by
      intro hplace
      rw [hplace] at hadjoins
      cases hadjoins
    rw [Page.write_eq_add hplace]
    obtain ⟨-, hpen, -⟩ := hstrikes
    cases hpen with
    | nothing _ hnone => rw [hnone] at hadjoins; cases hadjoins
    | token _ _ _ _ hsame =>
      show lastWordKind (_ ++ _) = _
      rw [← List.append_assoc, lastWordKind_concat, hsame hadjoins]

end TinyScript.Parsing
