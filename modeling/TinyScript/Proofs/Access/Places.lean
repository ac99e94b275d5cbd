import TinyScript.Proofs.Bytecode.Bounds

/-!
# Places that indices denote

An integer from `-len` on denotes a place, the negative ones counted from the end, and nothing else does
(`Index.resolveInt_eq_ok_iff`). Integers and lengths have 64 bits: below the largest length none of the steps
from an index to its place wraps around (`Index.resolveWord_eq`).
-/

namespace TinyScript

/-- The integer value of a number fits 64 bits. -/
theorem Number.toInt64_mem (x : Float) :
    -9223372036854775808 ≤ Number.toInt64 x ∧ Number.toInt64 x ≤ 9223372036854775807 := by
  unfold Number.toInt64 Number.clamp
  split
  · split <;> decide
  · omega

namespace Index
variable {x : Float} {i : Int} {len k : Nat} {isBound : Bool}

/-- The greatest integer that denotes a place. -/
def last (len : Nat) (isBound : Bool) : Int :=
  if isBound then len else len - 1

theorem resolveInt_of_mem (h : -(len : Int) ≤ i ∧ i ≤ last len isBound) :
    resolveInt i len isBound = .ok (if i < 0 then len + i else i).toNat := by
  have hrange : ¬ (i < -(len : Int) ∨ last len isBound < i) := by omega
  show (if i < -(len : Int) ∨ last len isBound < i then _ else _) = _
  rw [if_neg hrange]
  split <;> rfl

theorem resolveInt_of_not_mem (h : ¬ (-(len : Int) ≤ i ∧ i ≤ last len isBound)) :
    resolveInt i len isBound = .error (.bounds i) := by
  have hrange : i < -(len : Int) ∨ last len isBound < i := by omega
  exact if_pos hrange

theorem resolveInt_eq_ok_iff : resolveInt i len isBound = .ok k ↔
    -(len : Int) ≤ i ∧ i ≤ last len isBound ∧ (k : Int) = if i < 0 then len + i else i := by
  by_cases h : -(len : Int) ≤ i ∧ i ≤ last len isBound
  · have hplace : 0 ≤ if i < 0 then len + i else i := by split <;> omega
    rw [resolveInt_of_mem h, Except.ok.injEq]
    refine ⟨fun heq => ⟨h.1, h.2, ?_⟩, fun hk => ?_⟩
    · rw [← heq, Int.toNat_of_nonneg hplace]
    · rw [← hk.2.2, Int.toNat_natCast]
  · rw [resolveInt_of_not_mem h]
    exact iff_of_false nofun fun hk => h ⟨hk.1, hk.2.1⟩

/-- What denotes a place is the integer value of a number that has no fraction. -/
theorem resolve_eq (h : Number.isInteger x) :
    resolve x len isBound = resolveInt (Number.toInt64 x) len isBound :=
  if_pos h

/-! ### In 64 bits -/

/-- The same steps on words: the length is made a signed word, and the place an unsigned one. -/
def resolveWord (i : Int64) (len : Nat) (isBound : Bool) : Except Panic Nat :=
  let n := Int64.ofNat len
  let last := if isBound then n else n - 1
  if i < -n ∨ last < i then .error (.bounds i.toInt)
  else if i < 0 then .ok (n + i).toUInt64.toNat
  else .ok i.toUInt64.toNat

theorem toNat_toUInt64 {w : Int64} (h : 0 ≤ w.toInt) : w.toUInt64.toNat = w.toInt.toNat := by
  have hw : 0 ≤ w := Int64.le_iff_toInt_le.2 (Int64.toInt_zero ▸ h)
  rw [Int64.toNat_toUInt64_of_le hw]
  rfl

theorem resolveWord_eq (i : Int64) (hlen : len < Nat.pow 2 63) :
    resolveWord i len isBound = resolveInt i.toInt len isBound := by
  have hlen : len < 9223372036854775808 := hlen
  have hn : (Int64.ofNat len).toInt = len := Int64.toInt_ofNat_of_lt hlen
  have hneg : (-Int64.ofNat len).toInt = -len := Int64.toInt_neg_ofNat_of_le (Nat.le_of_lt hlen)
  have hlast : (if isBound then Int64.ofNat len else Int64.ofNat len - 1).toInt = last len isBound := by
    cases isBound with
    | true => exact hn
    | false =>
      have hsub : (Int64.ofNat len - 1).toInt = len - 1 := by
        rw [Int64.toInt_sub, hn, Int64.toInt_one, Int.bmod_eq_of_le (by omega) (by omega)]
      exact hsub
  have hlow := i.le_toInt
  have hrange : (i < -Int64.ofNat len ∨ (if isBound then Int64.ofNat len else Int64.ofNat len - 1) < i) ↔
      ¬ (-(len : Int) ≤ i.toInt ∧ i.toInt ≤ last len isBound) := by
    rw [Int64.lt_iff_toInt_lt, Int64.lt_iff_toInt_lt, hneg, hlast]
    omega
  have hzero : i < 0 ↔ i.toInt < 0 := Int64.lt_iff_toInt_lt.trans (by rw [Int64.toInt_zero])
  unfold resolveWord
  by_cases h : -(len : Int) ≤ i.toInt ∧ i.toInt ≤ last len isBound
  · rw [if_neg (hrange.not.2 (not_not.2 h)), resolveInt_of_mem h]
    by_cases hi : i.toInt < 0
    · have hsum : (Int64.ofNat len + i).toInt = len + i.toInt := by
        rw [Int64.toInt_add, hn, Int.bmod_eq_of_le (by omega) (by omega)]
      rw [if_pos (hzero.2 hi), if_pos hi, toNat_toUInt64 (by omega), hsum]
    · rw [if_neg (hzero.not.2 hi), if_neg hi, toNat_toUInt64 (by omega)]
  · rw [if_pos (hrange.2 h), resolveInt_of_not_mem h]

/-- The place of a number, found on words. -/
theorem resolve_eq_resolveWord (h : Number.isInteger x) (hlen : len < Nat.pow 2 63) :
    resolve x len isBound = resolveWord (Int64.ofInt (Number.toInt64 x)) len isBound := by
  obtain ⟨hlow, hhigh⟩ := Number.toInt64_mem x
  have hword : (Int64.ofInt (Number.toInt64 x)).toInt = Number.toInt64 x :=
    Int64.toInt_ofInt_of_le hlow (by omega)
  rw [resolve_eq h, resolveWord_eq _ hlen, hword]

end Index

end TinyScript
