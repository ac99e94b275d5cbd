import TinyScript.Text.CaseTable

/-! # Upper and lower case

Case is mapped one character at a time. A character whose counterpart is not a single character,
such as `ß` in upper case, stays as it is. -/

namespace TinyScript.Text

/-- Where a run takes `n`, if it holds `n`. -/
def CaseTable.Run.map? (r : CaseTable.Run) (n : Nat) : Option Nat :=
  if r.first ≤ n ∧ n ≤ r.last ∧ (n - r.first) % r.stride = 0 then
    some ((n : Int) + r.shift).toNat
  else none

/-- Maps a character by the first run that holds it. -/
def mapCase (runs : Array CaseTable.Run) (c : Char) : Char :=
  match runs.findSome? fun r => r.map? c.toNat with
  | some n => Char.ofNat n
  | none => c

/-- The upper case counterpart of a character. -/
def upperChar (c : Char) : Char :=
  if c.toNat < 0x80 then c.toUpper else mapCase CaseTable.upper c

/-- The lower case counterpart of a character. -/
def lowerChar (c : Char) : Char :=
  if c.toNat < 0x80 then c.toLower else mapCase CaseTable.lower c

end TinyScript.Text
