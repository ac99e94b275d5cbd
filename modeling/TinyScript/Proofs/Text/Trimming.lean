import Mathlib.Data.List.DropRight
import TinyScript.Text.Blank

/-!
# Text without blanks at its ends

Trimming takes away characters at the ends only, and there is nothing left to trim afterwards.
-/

namespace TinyScript.Text

variable {p : Char → Bool} {cs : List Char}

theorem trimWhere_eq (p : Char → Bool) (cs : List Char) :
    trimWhere p cs = (cs.dropWhile p).rdropWhile p :=
  rfl

theorem trimWhere_trimWhere (p : Char → Bool) (cs : List Char) :
    trimWhere p (trimWhere p cs) = trimWhere p cs := by
  have hstart : (cs.dropWhile p).rdropWhile p <+: cs.dropWhile p := List.rdropWhile_prefix p _
  have hhead : ((cs.dropWhile p).rdropWhile p).dropWhile p = (cs.dropWhile p).rdropWhile p := by
    refine List.dropWhile_eq_self_iff.2 fun hpos => ?_
    have hne : cs.dropWhile p ≠ [] := List.ne_nil_of_length_pos (Nat.lt_of_lt_of_le hpos hstart.length_le)
    have hnot := List.head_dropWhile_not p hne
    rw [hstart.getElem hpos, ← List.head_eq_getElem hne, hnot]
    exact Bool.false_ne_true
  rw [trimWhere_eq, trimWhere_eq, hhead, List.rdropWhile_idempotent]

theorem trim_trim (s : String) : trim (trim s) = trim s := by
  rw [trim, trim, String.toList_ofList, trimWhere_trimWhere]

theorem rdropWhile_cons {c : Char} (h : p c = false) : (c :: cs).rdropWhile p = c :: cs.rdropWhile p := by
  unfold List.rdropWhile
  rw [List.reverse_cons, List.dropWhile_append]
  split
  · next hempty =>
    have hnil : cs.reverse.dropWhile p = [] := List.isEmpty_iff.1 hempty
    rw [hnil, List.dropWhile_cons, h, if_neg Bool.false_ne_true]
    rfl
  · rw [List.reverse_append]
    rfl

/-- A text that starts with a character that is kept starts with it after trimming. -/
theorem trimWhere_cons {c : Char} (h : p c = false) : trimWhere p (c :: cs) = c :: cs.rdropWhile p := by
  rw [trimWhere_eq, List.dropWhile_cons, h, if_neg Bool.false_ne_true, rdropWhile_cons h]

end TinyScript.Text
