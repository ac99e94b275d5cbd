import TinyScript.Text.IdentTable

/-! # Identifiers

An identifier starts with a letter or an underscore and goes on with letters, digits, marks and
underscores. Which characters these are is left to `IdentChars`, which says so for ASCII alone. The table
of Unicode is one instance. -/

namespace TinyScript.Text

/-- The characters that identifiers start with and go on with, beside the underscore. -/
class IdentChars where
  starts : Char → Bool
  continues : Char → Bool
  starts_ascii : ∀ c : Char, c.toNat < 0x80 → starts c = c.isAlpha
  continues_ascii : ∀ c : Char, c.toNat < 0x80 → continues c = (c.isAlphanum || c == '_')

section
variable [IdentChars]

/-- Whether an identifier may start with `c`. -/
def isIdentStart (c : Char) : Bool :=
  c == '_' || IdentChars.starts c

/-- Whether an identifier may go on with `c`. -/
def isIdentContinue (c : Char) : Bool :=
  c == '_' || IdentChars.continues c

/-- Whether `cs` is one identifier or keyword. -/
def isIdent : List Char → Bool
  | [] => false
  | c :: cs => isIdentStart c && cs.all isIdentContinue

theorem isIdentStart_ascii {c : Char} (h : c.toNat < 0x80) : isIdentStart c = (c == '_' || c.isAlpha) := by
  rw [isIdentStart, IdentChars.starts_ascii c h]

theorem isIdentContinue_ascii {c : Char} (h : c.toNat < 0x80) :
    isIdentContinue c = (c == '_' || (c.isAlphanum || c == '_')) := by
  rw [isIdentContinue, IdentChars.continues_ascii c h]

end

/-! ### Unicode -/

/-- Whether one of the closed ranges holds `n`. -/
def inRanges (ranges : Array (Nat × Nat)) (n : Nat) : Bool :=
  ranges.any fun r => r.1 ≤ n && n ≤ r.2

/-- Whether `c` is a letter, in ASCII or by the table. -/
def isLetter (c : Char) : Bool :=
  if c.toNat < 0x80 then c.isAlpha
  else if c.toNat < 0x10000 then inRanges IdentTable.startBasic c.toNat
  else inRanges IdentTable.startOther c.toNat

/-- Whether `c` is a digit, a mark or an underscore, in ASCII or by the table. -/
def isLetterTail (c : Char) : Bool :=
  if c.toNat < 0x80 then c.isDigit || c == '_'
  else if c.toNat < 0x10000 then inRanges IdentTable.continueBasic c.toNat
  else inRanges IdentTable.continueOther c.toNat

/-- Letters, digits and marks of Unicode. -/
instance unicodeIdentChars : IdentChars where
  starts := isLetter
  continues c := isLetter c || isLetterTail c
  starts_ascii _ h := if_pos h
  continues_ascii c h := by
    rw [isLetter, isLetterTail, if_pos h, if_pos h, Char.isAlphanum, Bool.or_assoc]

theorem isIdentContinue_of_isIdentStart {c : Char} (h : isIdentStart c) : isIdentContinue c := by
  rcases Bool.or_eq_true_iff.1 h with hunderscore | hletter
  · exact Bool.or_eq_true_iff.2 (.inl hunderscore)
  · exact Bool.or_eq_true_iff.2 (.inr (Bool.or_eq_true_iff.2 (.inl hletter)))

end TinyScript.Text
