import TinyScript.Proofs.Scribing.Rows
import TinyScript.Proofs.Scribing.Scanning

/-!
# Copies of what is drawn

The rows that are drawn are scanned and copied again as they are, if that goes on to the end of input. What is
written for an infinite number is not copied, so there is none then.
-/

namespace TinyScript.Layout
open Word

section
variable {c c' : Scribe}

theorem Retraces.declared (h : Retraces c c') : c'.declared = c.declared := by
  cases h <;> rfl

theorem Retraces.kind (h : Retraces c c') : c'.kind = c.kind := by
  cases h <;> rfl

theorem Retraces.eq (h : Retraces c c') (hc : c.place = .start) : c' = c := by
  cases h with
  | same => rfl
  | ended hrest => rw [hc] at hrest; cases hrest

/-- Words are not scanned as blanks, and not as the end of input. -/
theorem live_of_sound {kind : TokenKind} {literal : String} (h : Sound (token kind literal)) :
    kind ≠ .ws ∧ kind ≠ .eof := by
  rcases h with h | h
  · rw [show kind = .numLit from congrArg wordKind h]
    exact ⟨nofun, nofun⟩
  · constructor <;>
    · rintro rfl
      exact h.1

end

theorem Spoken.uncons {w : Word} {words : List Word} {ts : List (TokenKind × String)} (h : Spoken (w :: words) ts)
    (hfinite : w ≠ infinity) : ∃ ts', ts = (wordKind w, wordLiteral w) :: ts' ∧ Spoken words ts' := by
  cases h with
  | word _ h => exact ⟨_, rfl, h⟩
  | infinite => exact absurd rfl hfinite

/-- Names that are declared in both are functions in both or in none. -/
def SameCalls (fn fn' : String → Bool) (declared declared' : List String) : Prop :=
  ∀ name ∈ declared, name ∈ declared' → (fn name ↔ fn' name)

theorem SameCalls.mono {fn fn' : String → Bool} {declared declared₁ declared' : List String}
    (h : SameCalls fn fn' declared₁ declared') (hsub : declared ⊆ declared₁) : SameCalls fn fn' declared declared' :=
  fun name hname => h name (hsub hname)

section
variable {fn : String → Bool} {c₀ c : Scribe}

theorem LineDrawn.declared {words : List Word} (h : LineDrawn fn c₀ words c) : c₀.declared ⊆ c.declared := by
  induction h with
  | nil => exact List.Subset.refl _
  | stroke _ hstrikes _ ih => exact List.Subset.trans ih (stroke_declared hstrikes.stroke)

theorem RowDrawn.declared {r : Row} (h : RowDrawn fn c₀ r c) : c₀.declared ⊆ c.declared := by
  cases h with
  | row h hstrikes => exact List.Subset.trans h.declared (stroke_declared hstrikes.stroke)

theorem RowsDrawn.declared {rows : List Row} (h : RowsDrawn fn c₀ rows c) : c₀.declared ⊆ c.declared := by
  induction h with
  | nil => exact List.Subset.refl _
  | cons hrow _ ih => exact List.Subset.trans hrow.declared ih

end

end TinyScript.Layout

namespace TinyScript.Parsing
open Layout Word

variable {d : Draft} {i j n : Nat} {p q : Page} {ts : List (TokenKind × String)} {t : TokenKind × String}
  {words ws w line : List Word} {c c' c₀ c₁ : Scribe} {kind : TokenKind} {literal : String} {blank : Bool}

/-! ### Copies of tokens -/

namespace Copied

theorem start_le (h : Copied d i p) : d.start ≤ i := by
  induction h with
  | start => exact Nat.le_refl _
  | blank _ _ ih => exact Nat.le_succ_of_le ih
  | token _ _ _ _ ih => exact Nat.le_succ_of_le ih

theorem unique (h : Copied d i p) (h' : Copied d i q) : p = q := by
  induction h generalizing q with
  | start =>
    generalize hi : d.start = i at h'
    cases h' with
    | start => rfl
    | blank h' => exact absurd (hi ▸ h'.start_le) (Nat.not_succ_le_self _)
    | token h' => exact absurd (hi ▸ h'.start_le) (Nat.not_succ_le_self _)
  | @blank i p h hk ih =>
    generalize hj : i + 1 = j at h'
    cases h' with
    | start => exact absurd (hj ▸ h.start_le) (Nat.not_succ_le_self _)
    | blank h' =>
      obtain rfl := Nat.succ.inj hj
      exact ih h'
    | token h' _ hk' =>
      obtain rfl := Nat.succ.inj hj
      exact absurd hk hk'
  | @token i p words c h heof hk hstroke ih =>
    generalize hj : i + 1 = j at h'
    cases h' with
    | start => exact absurd (hj ▸ h.start_le) (Nat.not_succ_le_self _)
    | blank h' hk' =>
      obtain rfl := Nat.succ.inj hj
      exact absurd hk' hk
    | token h' _ _ hstroke' =>
      obtain rfl := Nat.succ.inj hj
      obtain rfl := ih h'
      obtain ⟨rfl, rfl⟩ := Prod.mk.inj (Option.some.inj (hstroke.symm.trans hstroke'))
      rfl

/-- Only tokens before the end of input are copied. -/
theorem live (h : Copied d n p) (hi : d.start ≤ i) (hlt : i < n) : (d.tokenAt i).kind ≠ .eof := by
  induction h with
  | start => exact absurd hlt (Nat.not_lt.2 hi)
  | blank _ hk ih =>
    rcases Nat.lt_succ_iff_lt_or_eq.1 hlt with hlt | rfl
    · exact ih hlt
    · rw [hk]
      nofun
  | token _ heof _ _ ih =>
    rcases Nat.lt_succ_iff_lt_or_eq.1 hlt with hlt | rfl
    · exact ih hlt
    · exact heof

/-- Where copying went on there was something to write. -/
theorem stroke_of_lt (h : Copied d n p) (hq : Copied d i q) (hlt : i < n) (hk : (d.tokenAt i).kind ≠ .ws) :
    ∃ r, stroke d.fn q.scribe (d.tokenAt i).kind (d.tokenAt i).literal (d.afterBlank i) = some r := by
  induction h with
  | start => exact absurd hq.start_le (Nat.not_le.2 hlt)
  | blank _ hws ih =>
    rcases Nat.lt_succ_iff_lt_or_eq.1 hlt with hlt | rfl
    · exact ih hlt
    · exact absurd hws hk
  | token h _ _ hstroke ih =>
    rcases Nat.lt_succ_iff_lt_or_eq.1 hlt with hlt | rfl
    · exact ih hlt
    · obtain rfl := h.unique hq
      exact ⟨_, hstroke⟩

/-- What was declared stays declared. -/
theorem declared_subset (h : Copied d n p) (hq : Copied d i q) (hle : i ≤ n) :
    q.scribe.declared ⊆ p.scribe.declared := by
  induction h with
  | start =>
    obtain rfl := Nat.le_antisymm hle hq.start_le
    rw [hq.unique .start]
    exact List.Subset.refl _
  | @blank j p h hk ih =>
    rcases Nat.le_succ_iff.1 hle with hle | rfl
    · exact ih hle
    · rw [hq.unique (h.blank hk)]
      exact List.Subset.refl _
  | @token j p words c h heof hk hstroke ih =>
    rcases Nat.le_succ_iff.1 hle with hle | rfl
    · rw [Page.write_scribe]
      exact List.Subset.trans (ih hle) (stroke_declared hstroke)
    · rw [hq.unique (h.token heof hk hstroke)]
      exact List.Subset.refl _

end Copied

/-- All tokens before the end of input are copied on the page. -/
structure Finished (d : Draft) (n : Nat) (p : Page) : Prop where
  copied : Copied d n p
  eof : (d.tokenAt n).kind = .eof

namespace Finished

theorem le (h : Finished d n p) (hq : Copied d i q) : i ≤ n :=
  Nat.le_of_not_lt fun hlt => hq.live h.copied.start_le hlt h.eof

theorem stroke (h : Finished d n p) (hq : Copied d i q) (heof : (d.tokenAt i).kind ≠ .eof)
    (hk : (d.tokenAt i).kind ≠ .ws) :
    ∃ r, stroke d.fn q.scribe (d.tokenAt i).kind (d.tokenAt i).literal (d.afterBlank i) = some r := by
  have hne : i ≠ n := by
    rintro rfl
    exact heof h.eof
  exact h.copied.stroke_of_lt hq (Nat.lt_of_le_of_ne (h.le hq) hne) hk

theorem eq (h : Finished d n p) (hq : Copied d i q) (heof : (d.tokenAt i).kind = .eof) : q = p := by
  have hle : n ≤ i := Nat.le_of_not_lt fun hlt => h.copied.live hq.start_le hlt heof
  obtain rfl := Nat.le_antisymm (h.le hq) hle
  exact hq.unique h.copied

end Finished

/-! ### Copies of words -/

/-- The tokens from an index on have the given kinds and literals. -/
def Draft.From (d : Draft) (i : Nat) (ts : List (TokenKind × String)) : Prop :=
  ∀ j t, ts[j]? = some t → (d.tokenAt (i + j)).kind = t.1 ∧ (d.tokenAt (i + j)).literal = t.2

theorem Draft.From.head (h : d.From i (t :: ts)) : (d.tokenAt i).kind = t.1 ∧ (d.tokenAt i).literal = t.2 :=
  h 0 t rfl

theorem Draft.From.tail (h : d.From i (t :: ts)) : d.From (i + 1) ts := by
  intro j t hj
  rw [Nat.add_right_comm]
  exact h (j + 1) t hj

theorem Draft.afterBlank_succ (d : Draft) (i : Nat) : d.afterBlank (i + 1) = decide ((d.tokenAt i).kind = .ws) := by
  rw [Draft.afterBlank, if_neg (Nat.succ_ne_zero i), Nat.add_sub_cancel]
  exact decide_eq_decide.2 ⟨Option.some.inj, congrArg some⟩

/-- A word that was written is written again. -/
theorem Finished.retrace (h : Finished d n p) (hq : Copied d i q) (hfrom : d.From i ts)
    (hspoken : Spoken (token kind literal :: ws) ts) (hsound : Sound (token kind literal))
    (hagain : Legible kind literal → ∀ r, Layout.stroke d.fn q.scribe kind literal (d.afterBlank i) = some r →
      r = (words, c))
    (hplus : kind = .numLit → Layout.stroke d.fn q.scribe .plus "" (d.afterBlank i) = none) :
    ∃ ts', Copied d (i + 1) (q.write words c) ∧ d.From (i + 1) ts' ∧ Spoken ws ts' ∧ d.afterBlank (i + 1) = false := by
  generalize hwords : token kind literal :: ws = said at hspoken
  cases hspoken with
  | nil => cases hwords
  | infinite said ts =>
    obtain ⟨hkind, -⟩ := Word.token.inj (List.cons.inj hwords).1
    obtain ⟨htoken, hliteral⟩ := hfrom.head
    obtain ⟨r, hr⟩ := h.stroke hq (by rw [htoken]; nofun) (by rw [htoken]; nofun)
    rw [htoken, hliteral, hplus hkind] at hr
    cases hr
  | @word w said ts hfinite hrest =>
    obtain ⟨rfl, rfl⟩ := List.cons.inj hwords
    obtain ⟨htoken, hliteral⟩ : (d.tokenAt i).kind = kind ∧ (d.tokenAt i).literal = literal := hfrom.head
    obtain ⟨hws, heof⟩ := live_of_sound hsound
    have hlegible : Legible kind literal := (hsound.resolve_left hfinite).2
    rw [← htoken] at hws heof
    obtain ⟨r, hr⟩ := h.stroke hq heof hws
    have hr' := hr
    rw [htoken, hliteral] at hr'
    obtain rfl := hagain hlegible r hr'
    refine ⟨ts, hq.token heof hws hr, hfrom.tail, hrest, ?_⟩
    rw [d.afterBlank_succ]
    exact decide_eq_false hws

/-- A gap that was written is copied. -/
theorem Copied.afterGap {gap : List Word} (hgap : IsGap gap) (hq : Copied d i q) (hblank : d.afterBlank i = false)
    (hfrom : d.From i ts) (hspoken : Spoken (gap ++ ws) ts) :
    ∃ j ts', Copied d j q ∧ d.From j ts' ∧ Spoken ws ts' ∧ d.afterBlank j = !gap.isEmpty := by
  rcases hgap with rfl | ⟨more, rfl⟩
  · exact ⟨i, ts, hq, hfrom, hspoken, hblank⟩
  · obtain ⟨ts', rfl, hrest⟩ := hspoken.uncons nofun
    have hk : (d.tokenAt i).kind = .ws := hfrom.head.1
    refine ⟨i + 1, ts', hq.blank hk, hfrom.tail, hrest, ?_⟩
    rw [d.afterBlank_succ]
    exact decide_eq_true hk

/-- Words are copied again from a place on, with rows and a line that were copied so far. The scribe knows the
same as the one that wrote them. -/
def Follows (d : Draft) (ws : List Word) (rows : List Row) (line : List Word) (c : Scribe) : Prop :=
  ∃ i ts c', Copied d i ⟨rows, line, c'⟩ ∧ Retraces c c' ∧ d.afterBlank i = false ∧ d.From i ts ∧ Spoken ws ts

section
variable {fn : String → Bool} {rows rs : List Row} {r : Row} {cEnd : Scribe}

/-- What is written where a page is followed. -/
theorem Follows.write {i : Nat} {ts : List (TokenKind × String)} (h : Copied d i (Page.write ⟨rows, line, c'⟩ w c₁))
    (hkind : c'.kind = c.kind) (hblank : d.afterBlank i = false) (hfrom : d.From i ts) (hspoken : Spoken ws ts) :
    (c₁.place ≠ .start → Follows d ws rows (line ++ w) c₁) ∧
      (c₁.place = .start → Follows d ws (rows ++ [⟨line ++ w, c.kind⟩]) [] c₁) := by
  constructor
  · intro hplace
    rw [Page.write_eq_add hplace] at h
    exact ⟨i, ts, c₁, h, .same c₁, hblank, hfrom, hspoken⟩
  · intro hplace
    rw [Page.write_eq_newRow hplace] at h
    exact ⟨i, ts, c₁, hkind ▸ h, .same c₁, hblank, hfrom, hspoken⟩

/-- What a stroke has written is copied. -/
theorem Follows.stroke (h : Follows d (w ++ ws) rows line c) (hend : Finished d n p)
    (hsame : SameCalls fn d.fn c.declared p.scribe.declared) (hstrikes : Strikes fn line c kind literal blank w c₁) :
    (c₁.place ≠ .start → Follows d ws rows (line ++ w) c₁) ∧
      (c₁.place = .start → Follows d ws (rows ++ [⟨line ++ w, c.kind⟩]) [] c₁) := by
  obtain ⟨i, ts, c', hcopied, hretraces, hblank, hfrom, hspoken⟩ := h
  have hmem (name : String) (hname : name ∈ c.declared) : name ∈ p.scribe.declared :=
    hend.copied.declared_subset hcopied (hend.le hcopied) (hretraces.declared ▸ hname)
  have hsound := hstrikes.penned.sound hstrikes.faithful
  have hkind := hretraces.kind
  have hstart := hstrikes.penned.ne_nil
  generalize hr : (w, c₁) = r at hsound
  -- the token stands in the text again, or it left nothing there and the scribe that follows waits at its place
  obtain hagain | ⟨hnil, hrest⟩ := stroke_retraced hretraces (fun name hname => (hsame name hname (hmem name hname)).2)
    (fun name hname => (hsame name hname (hmem name hname)).1) (hstrikes.stroke.trans (congrArg some hr))
  · cases hagain with
    | @intro gap kind' literal' c₂ hgap _ hagain hplus =>
      obtain ⟨rfl, rfl⟩ := Prod.mk.inj hr
      have hword : Sound (token kind' literal') := hsound _ (List.mem_append.2 (.inr (List.mem_singleton.2 rfl)))
      rw [List.append_assoc] at hspoken
      obtain ⟨j, ts, hcopied, hfrom, hspoken, hblank⟩ := hcopied.afterGap hgap hblank hfrom hspoken
      obtain ⟨ts, hcopied, hfrom, hspoken, hblank⟩ :=
        hend.retrace hcopied hfrom hspoken hword (by rwa [hblank]) (by rwa [hblank])
      exact Follows.write hcopied hkind hblank hfrom hspoken
  · subst hr
    obtain rfl : w = [] := hnil
    refine ⟨fun _ => ?_, fun hplace => absurd rfl (hstart hplace)⟩
    rw [List.append_nil]
    exact ⟨i, ts, c', hcopied, hrest, hblank, hfrom, hspoken⟩

/-- A line that was drawn is copied. -/
theorem Follows.copyLine (h : Follows d (words ++ ws) rows [] c₀) (hend : Finished d n p)
    (hdrawn : LineDrawn fn c₀ words c)
    (hsame : SameCalls fn d.fn c.declared p.scribe.declared) : Follows d ws rows words c := by
  induction hdrawn generalizing ws with
  | nil => exact h
  | @stroke words w c c₁ kind literal blank _ hstrikes hline ih =>
    have hsame := hsame.mono (stroke_declared hstrikes.stroke)
    rw [List.append_assoc] at h
    exact ((ih h hsame).stroke hend hsame hstrikes).1 hline

/-- A row that was drawn is copied. -/
theorem Follows.copyRow (h : Follows d (r.words ++ ws) rows [] c₀) (hend : Finished d n p) (hdrawn : RowDrawn fn c₀ r c)
    (hsame : SameCalls fn d.fn c.declared p.scribe.declared) : Follows d ws (rows ++ [r]) [] c := by
  cases hdrawn with
  | row hdrawn hstrikes hline =>
    have hsame := hsame.mono (stroke_declared hstrikes.stroke)
    rw [List.append_assoc] at h
    exact ((h.copyLine hend hdrawn hsame).stroke hend hsame hstrikes).2 hline

/-- Rows that were drawn are copied. -/
theorem Follows.copyRows (h : Follows d (rowWords rs ++ ws) rows [] c₀) (hend : Finished d n p)
    (hdrawn : RowsDrawn fn c₀ rs c)
    (hsame : SameCalls fn d.fn c.declared p.scribe.declared) : Follows d ws (rows ++ rs) [] c := by
  induction hdrawn generalizing rows with
  | nil =>
    rw [List.append_nil]
    exact h
  | @cons c c₁ c' r rs hrow hrest ih =>
    rw [rowWords_cons, List.append_assoc] at h
    have hrows := ih (h.copyRow hend hrow (hsame.mono hrest.declared)) hsame
    rwa [List.append_assoc] at hrows

/-- Nothing is copied after the last word. -/
theorem Follows.end (h : Follows d [] rows [] c) (hend : Finished d n p) (hc : c.place = .start) :
    p = ⟨rows, [], c⟩ := by
  obtain ⟨i, ts, c', hcopied, hretraces, -, hfrom, hspoken⟩ := h
  cases hspoken
  rw [← hend.eq hcopied hfrom.head.1, hretraces.eq hc]

end

end TinyScript.Parsing
