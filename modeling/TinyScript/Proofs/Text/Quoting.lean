import Mathlib.Data.Option.Basic
import TinyScript.Proofs.Text.Utf8
import TinyScript.Text.Quoted

/-!
# Reading what was quoted

The body of a quoted text stands for the text. Every character is read from its own escape, so the
proofs go character by character.
-/

namespace TinyScript.Text

/-! ### One character -/

theorem numeral?_hexDigits : ∀ n < 128, numeral? 16 [hexDigit (n / 16), hexDigit (n % 16)] = some n := by
  decide +kernel

theorem utf8EncodeChar_of_lt {c : Char} (h : c.toNat < 0x80) :
    String.utf8EncodeChar c = [UInt8.ofNat c.toNat] := by
  have hle : c.val.toNat ≤ 0x7f := Nat.le_of_lt_succ h
  rw [String.utf8EncodeChar, if_pos hle]
  rfl

/-- The escapes of one letter. -/
def simplyEscaped : List (Char × Char) :=
  [('"', '"'), ('\\', '\\'), ('\n', 'n'), ('\r', 'r'), ('\t', 't'), ('\x07', 'a'), ('\x08', 'b'),
    ('\x0c', 'f'), ('\x0b', 'v')]

theorem simpleEscape?_of_mem : ∀ p ∈ simplyEscaped,
    simpleEscape? p.2 = some p.1 ∧ p.2 ≠ 'x' ∧ p.2 ≠ 'u' ∧ p.2 ≠ 'U' ∧ p.2 ≠ '\n' := by
  decide

theorem escape_of_mem : ∀ p ∈ simplyEscaped, escape p.1 = ['\\', p.2] := by
  decide

/-- A character is written by a letter, by its code, or as itself. -/
theorem escape_cases (c : Char) :
    (∃ o, (c, o) ∈ simplyEscaped ∧ escape c = ['\\', o]) ∨
    (c.toNat < 0x80 ∧ escape c = ['\\', 'x', hexDigit (c.toNat / 16), hexDigit (c.toNat % 16)]) ∨
    (c ≠ '"' ∧ c ≠ '\\' ∧ c ≠ '\n' ∧ escape c = [c]) := by
  by_cases hquote : c = '"'
  · subst hquote
    exact .inl ⟨'"', by decide, rfl⟩
  by_cases hslash : c = '\\'
  · subst hslash
    exact .inl ⟨'\\', by decide, rfl⟩
  by_cases hnewline : c = '\n'
  · subst hnewline
    exact .inl ⟨'n', by decide, rfl⟩
  by_cases hletter : ∃ o, (c, o) ∈ simplyEscaped
  · obtain ⟨o, ho⟩ := hletter
    exact .inl ⟨o, ho, escape_of_mem _ ho⟩
  have hne {d o : Char} (hd : (d, o) ∈ simplyEscaped) : c ≠ d := fun hc => hletter ⟨o, hc ▸ hd⟩
  have hescape : escape c =
      if c.toNat < 0x20 ∨ c.toNat = 0x7f then
        ['\\', 'x', hexDigit (c.toNat / 16), hexDigit (c.toNat % 16)]
      else [c] := by
    rw [escape, if_neg hquote, if_neg hslash, if_neg hnewline,
      if_neg (hne (o := 'r') (by decide)), if_neg (hne (o := 't') (by decide)),
      if_neg (hne (o := 'a') (by decide)), if_neg (hne (o := 'b') (by decide)),
      if_neg (hne (o := 'f') (by decide)), if_neg (hne (o := 'v') (by decide))]
  by_cases hcode : c.toNat < 0x20 ∨ c.toNat = 0x7f
  · rw [if_pos hcode] at hescape
    exact .inr (.inl ⟨by omega, hescape⟩)
  · rw [if_neg hcode] at hescape
    exact .inr (.inr ⟨hquote, hslash, hnewline, hescape⟩)

/-! ### Reading -/

theorem unescape_simple {c o : Char} (h : (c, o) ∈ simplyEscaped) (rest : List Char) :
    unescape ('\\' :: o :: rest) = (unescape rest).map (String.utf8EncodeChar c ++ ·) := by
  obtain ⟨hread, hx, hu, hU, -⟩ := simpleEscape?_of_mem _ h
  dsimp only at hread hx hu hU
  -- the octal escapes split the equation on whether two characters follow
  by_cases hmore : ∃ p q more, rest = p :: q :: more
  · obtain ⟨p, q, more, rfl⟩ := hmore
    rw [unescape.eq_5, hread]
    all_goals simp [hx, hu, hU]
  · rw [unescape.eq_6, hread]
    · simp [hx]
    · simp [hu]
    · simp [hU]
    · exact fun p q more hrest => hmore ⟨p, q, more, hrest⟩

theorem unescape_code {c : Char} (h : c.toNat < 0x80) (rest : List Char) :
    unescape ('\\' :: 'x' :: hexDigit (c.toNat / 16) :: hexDigit (c.toNat % 16) :: rest) =
      (unescape rest).map (String.utf8EncodeChar c ++ ·) := by
  rw [unescape, numeral?_hexDigits _ h, utf8EncodeChar_of_lt h]
  cases unescape rest <;> rfl

theorem unescape_plain {c : Char} (h : c ≠ '\\') (rest : List Char) :
    unescape (c :: rest) = (unescape rest).map (String.utf8EncodeChar c ++ ·) := by
  rw [unescape]
  all_goals simp [h]

theorem unescape_escapeAll (cs : List Char) : unescape (escapeAll cs) = some (Utf8.encode cs) := by
  induction cs with
  | nil => rfl
  | cons c cs ih =>
    have hencode : Utf8.encode (c :: cs) = String.utf8EncodeChar c ++ Utf8.encode cs := rfl
    have hmap : (unescape (escapeAll cs)).map (String.utf8EncodeChar c ++ ·) = some (Utf8.encode (c :: cs)) := by
      rw [ih, hencode]
      rfl
    rw [escapeAll, List.flatMap_cons, ← escapeAll, ← hmap]
    rcases escape_cases c with ⟨o, ho, hescape⟩ | ⟨hlt, hescape⟩ | ⟨-, hslash, -, hescape⟩
    · rw [hescape]
      exact unescape_simple ho _
    · rw [hescape]
      exact unescape_code hlt _
    · rw [hescape]
      exact unescape_plain hslash _

theorem unquote_escapeAll (cs : List Char) : unquote (escapeAll cs) = some cs := by
  rw [unquote, unescape_escapeAll, Option.map_some, Utf8.decode_encode]

end TinyScript.Text
