import TinyScript.Proofs.Layout.Newlines
import TinyScript.Proofs.Scribing.Drawing

/-!
# Words that are scanned again

The text of words that can stand next to each other is scanned as these words, up to the first number that is
infinite.
-/

namespace TinyScript.Layout
open Word

/-- The literal of the token that a word is scanned as. -/
def wordLiteral : Word → String
  | token _ literal => literal
  | blank _ => ""

/-- The kinds and literals of tokens that are scanned for words. An infinite number is scanned as a plus sign
and something else. -/
inductive Spoken : List Word → List (TokenKind × String) → Prop where
  | nil : Spoken [] [(.eof, "")]
  | word {w : Word} {words : List Word} {ts : List (TokenKind × String)} (hfinite : w ≠ infinity)
    (h : Spoken words ts) :
    Spoken (w :: words) ((wordKind w, wordLiteral w) :: ts)
  | infinite (words : List Word) (ts : List (TokenKind × String)) : Spoken (infinity :: words) ((.plus, "") :: ts)

variable {w : Word} {words : List Word}

theorem toList_text_blank (more : Nat) : (blank more).text.toList = List.replicate (more + 1) ' ' := by
  rw [text, String.toList_join]
  induction more + 1 with
  | zero => rfl
  | succ n ih =>
    rw [List.replicate_succ, List.flatMap_cons, ih, List.replicate_succ]
    rfl

theorem toList_text_infinity : infinity.text.toList = ['+', 'I', 'n', 'f'] := by decide

theorem Sound.reads (h : Sound w) (hfinite : w ≠ infinity) : Lexeme.Reads (wordKind w)
    (wordLiteral w) w.text.toList := by
  cases w with
  | token kind literal => exact Lexeme.reads_format (h.resolve_left hfinite).1 .start
  | blank more =>
    rw [toList_text_blank]
    exact Lexeme.reads_blank more

theorem Sound.legal (h : Sound w) : wordKind w ≠ .illegal := by
  cases w with
  | token kind literal =>
    rcases h with h | h
    · rw [h]
      nofun
    · rintro rfl
      exact h.1
  | blank => nofun

/-- What may come after a word starts with a character at which the word ends. -/
theorem Sound.endsBefore {w' : Word} (h : Sound w') (hjoin : (wordKind w).runsInto (wordKind w') = false) {d : Char}
    (hd : w'.text.toList.head? = some d) : (wordKind w).endsBefore d := by
  by_cases hfinite : w' = infinity
  · subst hfinite
    rw [toList_text_infinity] at hd
    obtain rfl : '+' = d := Option.some.inj hd
    generalize wordKind w = kind at hjoin
    cases kind <;> first | rfl | cases hjoin
  · obtain ⟨c, more, htext, hopens, -⟩ := h.reads hfinite
    rw [htext] at hd
    exact TokenKind.endsBefore_of_opens hjoin h.legal (Option.some.inj hd ▸ hopens)

theorem Sound.text_ne_nil (h : Sound w) : w.text.toList ≠ [] := by
  by_cases hfinite : w = infinity
  · rw [hfinite, toList_text_infinity]
    exact List.cons_ne_nil _ _
  · obtain ⟨c, more, htext, -⟩ := h.reads hfinite
    rw [htext]
    exact List.cons_ne_nil _ _

theorem cut_words (hjointed : Jointed words) (hsound : ∀ w ∈ words, Sound w) (pos : Position) :
    ∃ tokens, Token.Cut pos (join words).toList tokens ∧ Spoken words (tokens.map fun t => (t.kind, t.literal)) := by
  rw [toList_join]
  induction words generalizing pos with
  | nil => exact ⟨_, .eof pos, .nil⟩
  | cons w words ih =>
    obtain ⟨hw, hwords⟩ := List.forall_mem_cons.1 hsound
    rw [List.flatMap_cons]
    by_cases hfinite : w = infinity
    · subst hfinite
      obtain ⟨tokens, hcut⟩ := Token.exists_cut (pos.afterAll ['+']) ('I' :: 'n' :: 'f' :: words.flatMap
        (·.text.toList))
      refine ⟨⟨.plus, "", pos⟩ :: tokens, ?_, .infinite _ _⟩
      rw [toList_text_infinity]
      have hplus : Token.Cut pos ('+' :: ([] ++ 'I' :: 'n' :: 'f' :: words.flatMap (·.text.toList)))
          (⟨.plus, "", pos⟩ :: tokens) := .token rfl hcut
      exact hplus
    · obtain ⟨c, more, htext, -, hnext⟩ := hw.reads hfinite
      obtain ⟨tokens, hcut, hspoken⟩ := ih (List.IsChain.tail hjointed) hwords (pos.afterAll (c :: more))
      refine ⟨⟨wordKind w, wordLiteral w, pos⟩ :: tokens, ?_, .word hfinite hspoken⟩
      rw [htext]
      refine .token (hnext _ fun d hd => ?_) hcut
      -- the next word is not empty, so what comes next is its first character
      cases words with
      | nil => cases hd
      | cons w' words =>
        have hw' : Sound w' := hwords w' List.mem_cons_self
        rw [List.flatMap_cons, List.head?_append_of_ne_nil _ hw'.text_ne_nil] at hd
        exact hw'.endsBefore (List.isChain_cons_cons.1 hjointed).1 hd

/-- What words are written as is scanned as the words. -/
theorem spoken_scan (hjointed : Jointed words) (hsound : ∀ w ∈ words, Sound w) :
    Spoken words ((Token.scan (join words)).toList.map fun t => (t.kind, t.literal)) := by
  obtain ⟨tokens, hcut, hspoken⟩ := cut_words hjointed hsound .start
  have hscan : (Token.scan (join words)).toList = tokens := by
    rw [Token.scan, Token.scanFrom_of_cut hcut]
    simp
  rwa [hscan]

end TinyScript.Layout
