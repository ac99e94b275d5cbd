import TinyScript.Layout
import TinyScript.Proofs.Token.Rescanning

/-!
# Newlines in a row

`newlines n cs` reads a text that follows `n` newlines and counts those at its end; it has no result if
there are three in a row. So words that are put one after the other only have to agree on the newlines
between them (`Spaced`). Words are `Solid` if they begin and end with something visible, and `Flat` if they
end with something that is no newline wherever no newline comes before.
-/

namespace TinyScript

/-- The newlines in a row at the end of a text that follows `n` of them, unless it has three in a row. -/
def newlines : (n : Nat) → List Char → Option Nat
  | n, [] => some n
  | n, c :: cs => if c = '\n' then (if n < 2 then newlines (n + 1) cs else none) else newlines 0 cs

/-- There is something to see, all on one line. -/
structure Visible (text : String) : Prop where
  ne_nil : text.toList ≠ []
  oneLine : '\n' ∉ text.toList

instance (text : String) : Decidable (Visible text) :=
  decidable_of_iff (text.toList ≠ [] ∧ '\n' ∉ text.toList) ⟨fun h => ⟨h.1, h.2⟩, fun h => ⟨h.1, h.2⟩⟩

section
variable {n m k : Nat} {cs ds : List Char}

theorem newlines_append (n : Nat) (cs ds : List Char) :
    newlines n (cs ++ ds) = (newlines n cs).bind fun m => newlines m ds := by
  induction cs generalizing n with
  | nil => rfl
  | cons c cs ih =>
    rw [List.cons_append, newlines, newlines]
    split
    · split
      · exact ih (n + 1)
      · rfl
    · exact ih 0

theorem newlines_oneLine (hne : cs ≠ []) (h : '\n' ∉ cs) : newlines n cs = some 0 := by
  have hzero (cs : List Char) (h : '\n' ∉ cs) : newlines 0 cs = some 0 := by
    induction cs with
    | nil => rfl
    | cons c cs ih =>
      obtain ⟨hc, hcs⟩ := not_or.1 (mt List.mem_cons.2 h)
      rw [newlines, if_neg (Ne.symm hc), ih hcs]
  cases cs with
  | nil => exact absurd rfl hne
  | cons c cs =>
    obtain ⟨hc, hcs⟩ := not_or.1 (mt List.mem_cons.2 h)
    rw [newlines, if_neg (Ne.symm hc), hzero cs hcs]

/-- Nowhere in the text there are three newlines in a row. -/
theorem not_triple_of_newlines (h : newlines n cs = some m) : ¬ ['\n', '\n', '\n'] <:+: cs := by
  rintro ⟨before, after, rfl⟩
  rw [newlines_append, newlines_append] at h
  cases hbefore : newlines n before with
  | none =>
    rw [hbefore] at h
    cases h
  | some k =>
    have htriple : newlines k ['\n', '\n', '\n'] = none := by
      simp only [newlines, if_true]
      split
      · split
        · rw [if_neg (by omega)]
        · rfl
      · rfl
    rw [hbefore, Option.bind_some, htriple] at h
    cases h

/-- Where a newline comes before, the text does not start with two. -/
theorem not_double_prefix_of_newlines (h : newlines 1 cs = some m) : ¬ ['\n', '\n'] <+: cs := by
  rintro ⟨after, rfl⟩
  rw [newlines_append] at h
  cases h

end

/-! ### Words -/

namespace Word

/-- Written after `n` newlines in a row, the words never have three in a row, and `m` at their end. -/
def Spaced (n : Nat) (ws : List Word) (m : Nat) : Prop :=
  newlines n (join ws).toList = some m

/-- The words begin and end with something visible. -/
def Solid (ws : List Word) : Prop :=
  ∀ n, Spaced n ws 0

/-- The words end with something visible, or there are none. -/
def Flat (ws : List Word) : Prop :=
  Spaced 0 ws 0

section
variable {n m k : Nat} {w : Word} {ws vs : List Word}

theorem toList_join (ws : List Word) : (join ws).toList = ws.flatMap fun w => w.text.toList := by
  simp [join, List.flatMap_map]

theorem toList_join_append (ws vs : List Word) : (join (ws ++ vs)).toList = (join ws).toList ++ (join vs).toList := by
  simp [toList_join]

namespace Spaced

theorem nil (n : Nat) : Spaced n [] n := rfl

theorem append (h : Spaced n ws m) (h' : Spaced m vs k) : Spaced n (ws ++ vs) k := by
  rw [Spaced, toList_join_append, newlines_append, h]
  exact h'

theorem cons (h : Spaced n [w] m) (h' : Spaced m ws k) : Spaced n (w :: ws) k :=
  h.append h'

theorem newline (h : n < 2) : Spaced n [Word.newline] (n + 1) := by
  show newlines n ['\n'] = some (n + 1)
  rw [newlines, if_pos rfl, if_pos h, newlines]

end Spaced

theorem Solid.flat (h : Solid ws) : Flat ws := h 0

theorem Solid.append (h : Solid ws) (h' : Flat vs) : Solid (ws ++ vs) := fun n => (h n).append h'

theorem Flat.nil : Flat [] := Spaced.nil 0

theorem Flat.append (h : Flat ws) (h' : Flat vs) : Flat (ws ++ vs) := Spaced.append h h'

theorem Flat.ite {c : Prop} [Decidable c] (h : Flat ws) : Flat (if c then ws else []) := by
  split
  · exact h
  · exact .nil

theorem solid_of_visible (h : Visible w.text) : Solid [w] := by
  intro n
  rw [Spaced, toList_join]
  simpa using newlines_oneLine h.ne_nil h.oneLine

/-- A visible word and what follows it. -/
theorem Solid.cons (h : Visible w.text) (h' : Flat ws) : Solid (w :: ws) :=
  (solid_of_visible h).append h'

theorem Flat.cons (h : Visible w.text) (h' : Flat ws) : Flat (w :: ws) :=
  (Solid.cons h h').flat

theorem Flat.concat (h : Flat ws) (h' : Visible w.text) : Flat (ws ++ [w]) :=
  h.append (.cons h' .nil)

end

/-! ### Single words -/

theorem visible_blank (more : Nat) : Visible (blank more).text := by
  have htext : (blank more).text.toList = List.replicate (more + 1) ' ' := by
    rw [text, String.toList_join, List.flatMap_replicate]
    simp
  refine ⟨?_, ?_⟩ <;> rw [htext]
  · simp [List.replicate_succ]
  · simp

theorem visible_space : Visible space.text := visible_blank 0

theorem visible_quote (value : String) : Visible (token .stringLit value).text := by
  have hescape (c : Char) : '\n' ∉ Text.escape c := by
    rcases Text.escape_cases c with ⟨o, ho, heq⟩ | ⟨hlt, heq⟩ | ⟨-, -, hc, heq⟩ <;> rw [heq]
    · have hne := (Text.simpleEscape?_of_mem _ ho).2.2.2.2
      simpa using Ne.symm hne
    · have hhigh := (Lexeme.hexDigit_plain (c.toNat / 16) (by omega)).2.2
      have hlow := (Lexeme.hexDigit_plain (c.toNat % 16) (by omega)).2.2
      simp [Ne.symm hhigh, Ne.symm hlow]
    · simpa using Ne.symm hc
  have htext : (token .stringLit value).text.toList = '"' :: (Text.escapeAll value.toList ++ ['"']) := by
    simp [text, Token.format, Text.quote]
  refine ⟨?_, ?_⟩ <;> rw [htext]
  · exact List.cons_ne_nil _ _
  · have hall : '\n' ∉ Text.escapeAll value.toList := by
      intro hmem
      obtain ⟨c, -, hc⟩ := List.mem_flatMap.1 hmem
      exact hescape c hc
    simpa using hall

end Word

/-! ### Numbers -/

namespace Decimal

theorem newline_not_mem_toDigits (n : Nat) : '\n' ∉ Nat.toDigits 10 n := by
  intro hmem
  have hdigit := Nat.isDigit_of_mem_toDigits (by decide) (by decide) hmem
  exact absurd hdigit (by decide)

theorem newline_not_mem_stripZeros {ds : List Char} (h : '\n' ∉ ds) : '\n' ∉ stripZeros ds := by
  intro hmem
  have hrest := (List.dropWhile_suffix _).mem (List.mem_reverse.1 hmem)
  exact h (List.mem_reverse.1 hrest)

/-- The digits before and after the point are the given ones and zeros, and at least one stands before it. -/
theorem pointed_spec {ds : List Char} (places : Nat) (h : '\n' ∉ ds) :
    (pointed ds places).1 ≠ [] ∧ '\n' ∉ (pointed ds places).1 ∧ '\n' ∉ (pointed ds places).2 := by
  have hall : '\n' ∉ List.replicate (places + 1 - ds.length) '0' ++ ds := by simp [h]
  refine ⟨?_, fun hmem => hall (List.mem_of_mem_take hmem), fun hmem => hall (List.mem_of_mem_drop hmem)⟩
  intro hnil
  have hlength := congrArg List.length hnil
  simp only [pointed, List.length_take, List.length_append, List.length_replicate, List.length_nil] at hlength
  omega

theorem visible_positional (d : Numeral) : Visible d.positional := by
  unfold Numeral.positional
  split
  · rw [Nat.toString_eq_ofList_toDigits]
    refine ⟨?_, ?_⟩ <;> rw [String.toList_ofList]
    · exact Nat.toDigits_ne_nil
    · exact newline_not_mem_toDigits _
  · obtain ⟨hne, hwhole, hfraction⟩ := pointed_spec (-d.exponent).toNat (newline_not_mem_toDigits d.digits)
    have hstripped := newline_not_mem_stripZeros hfraction
    dsimp only
    split <;> refine ⟨?_, ?_⟩ <;> rw [String.toList_ofList]
    · exact hne
    · exact hwhole
    · simp
    · simp [hwhole, hstripped]

end Decimal

theorem Visible.append {text : String} (front : String) (hfront : '\n' ∉ front.toList) (h : Visible text) :
    Visible (front ++ text) := by
  refine ⟨?_, ?_⟩ <;> rw [String.toList_append]
  · simp [h.ne_nil]
  · simp [hfront, h.oneLine]

theorem visible_numLit (value : Float) : Visible (Word.token .numLit (Number.text value)).text := by
  show Visible (Number.text value)
  unfold Number.text
  split
  · decide
  · split <;> decide
  · next negative b _ =>
    have hdigits : Visible (if b.mantissa = 0 then "0" else b.shortest.positional) := by
      split
      · decide
      · exact Decimal.visible_positional _
    dsimp only
    split
    · exact hdigits.append "-" (by decide)
    · exact hdigits

end TinyScript
