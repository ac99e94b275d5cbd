import TinyScript.Text.Utf8

/-!
# Decoding what was encoded

`decode` reads back what `encode` writes: every character is read from exactly its own bytes. The
bounds of a second byte are those that the value of a character gives it after its first byte.
-/

namespace TinyScript.Text.Utf8

theorem toNat_ofNat_of_lt {n : Nat} (h : n < 256) : (UInt8.ofNat n).toNat = n := by
  rw [UInt8.toNat_ofNat']
  exact Nat.mod_eq_of_lt h

/-! ### First bytes -/

theorem lead_one : ∀ n < 0x80, lead (.ofNat n) = .whole (Char.ofNat n) := by
  decide +kernel

theorem lead_two : ∀ n < 0xE0, 0xC2 ≤ n → lead (.ofNat n) = .opens ⟨1, 0x80, 0xBF, n % 32⟩ := by
  decide +kernel

/-- The bounds of the second of three or four bytes. -/
def secondLow (n : Nat) : Nat :=
  if n = 0xE0 then 0xA0 else if n = 0xF0 then 0x90 else 0x80

def secondHigh (n : Nat) : Nat :=
  if n = 0xED then 0x9F else if n = 0xF4 then 0x8F else 0xBF

theorem secondLow_cases (n : Nat) :
    (n = 0xE0 ∧ secondLow n = 0xA0) ∨ (n = 0xF0 ∧ secondLow n = 0x90) ∨
      (n ≠ 0xE0 ∧ n ≠ 0xF0 ∧ secondLow n = 0x80) := by
  unfold secondLow
  split
  · omega
  · split <;> omega

theorem secondHigh_cases (n : Nat) :
    (n = 0xED ∧ secondHigh n = 0x9F) ∨ (n = 0xF4 ∧ secondHigh n = 0x8F) ∨
      (n ≠ 0xED ∧ n ≠ 0xF4 ∧ secondHigh n = 0xBF) := by
  unfold secondHigh
  split
  · omega
  · split <;> omega

theorem lead_three : ∀ n < 0xF0, 0xE0 ≤ n →
    lead (.ofNat n) = .opens ⟨2, .ofNat (secondLow n), .ofNat (secondHigh n), n % 16⟩ := by
  decide +kernel

theorem lead_four : ∀ n < 0xF5, 0xF0 ≤ n →
    lead (.ofNat n) = .opens ⟨3, .ofNat (secondLow n), .ofNat (secondHigh n), n % 8⟩ := by
  decide +kernel

/-! ### Further bytes -/

section
variable {lo hi value n : Nat} (bs : List UInt8)

theorem within_bounds (hlo : lo ≤ n) (hhi : n ≤ hi) (hn : hi < 256) :
    UInt8.ofNat lo ≤ UInt8.ofNat n ∧ UInt8.ofNat n ≤ UInt8.ofNat hi := by
  simp only [UInt8.le_iff_toNat_le, toNat_ofNat_of_lt (n := lo) (by omega),
    toNat_ofNat_of_lt (n := n) (by omega), toNat_ofNat_of_lt hn]
  exact ⟨hlo, hhi⟩

/-- The last byte of a character ends it. -/
theorem decodeFrom_last (hlo : lo ≤ n) (hhi : n ≤ hi) (hn : hi < 256) :
    decodeFrom (some ⟨1, .ofNat lo, .ofNat hi, value⟩) (.ofNat n :: bs) =
      Char.ofNat (value * 64 + n % 64) :: decodeFrom none bs := by
  rw [decodeFrom, if_pos (within_bounds hlo hhi hn), if_pos (Nat.le_refl 1), Pending.add,
    toNat_ofNat_of_lt (by omega)]

/-- A byte within the bounds goes on with the character under way. -/
theorem decodeFrom_more {owed : Nat} (hlo : lo ≤ n) (hhi : n ≤ hi) (hn : hi < 256) :
    decodeFrom (some ⟨owed + 2, .ofNat lo, .ofNat hi, value⟩) (.ofNat n :: bs) =
      decodeFrom (some ⟨owed + 1, .ofNat 0x80, .ofNat 0xBF, value * 64 + n % 64⟩) bs := by
  have howed : ¬ owed + 2 ≤ 1 := by omega
  rw [decodeFrom, if_pos (within_bounds hlo hhi hn), if_neg howed, Pending.add,
    toNat_ofNat_of_lt (by omega)]
  rfl

end

/-- Code points are below the surrogates or above them. -/
theorem toNat_cases (c : Char) : c.val.toNat < 0xD800 ∨ (0xDFFF < c.val.toNat ∧ c.val.toNat < 0x110000) :=
  c.valid

theorem decodeFrom_encodeChar (c : Char) (bs : List UInt8) :
    decodeFrom none (String.utf8EncodeChar c ++ bs) = c :: decodeFrom none bs := by
  have hvalid := toNat_cases c
  have hchar : Char.ofNat c.val.toNat = c := Char.ofNat_toNat c
  unfold String.utf8EncodeChar
  generalize c.val.toNat = v at hvalid hchar
  dsimp only
  split
  · rw [List.singleton_append, decodeFrom, lead_one v (by omega), hchar]
  split
  · have hvalue : (v / 64 % 32 + 192) % 32 * 64 + (v % 64 + 128) % 64 = v := by omega
    rw [List.cons_append, decodeFrom, lead_two _ (by omega) (by omega)]
    dsimp only [List.cons_append, List.nil_append]
    have hlast : decodeFrom (some ⟨1, .ofNat 0x80, .ofNat 0xBF, (v / 64 % 32 + 192) % 32⟩)
        (.ofNat (v % 64 + 128) :: bs) = _ :=
      decodeFrom_last bs (by omega) (by omega) (by omega)
    exact hlast.trans (by rw [hvalue, hchar])
  split
  · have hvalue : ((v / 4096 % 16 + 224) % 16 * 64 + (v / 64 % 64 + 128) % 64) * 64
        + (v % 64 + 128) % 64 = v := by omega
    rw [List.cons_append, decodeFrom, lead_three _ (by omega) (by omega)]
    dsimp only [List.cons_append, List.nil_append]
    have hlow := secondLow_cases (v / 4096 % 16 + 224)
    have hhigh := secondHigh_cases (v / 4096 % 16 + 224)
    rw [decodeFrom_more _ (by omega) (by omega) (by omega),
      decodeFrom_last bs (by omega) (by omega) (by omega), hvalue, hchar]
  · have hvalue : (((v / 262144 % 8 + 240) % 8 * 64 + (v / 4096 % 64 + 128) % 64) * 64
        + (v / 64 % 64 + 128) % 64) * 64 + (v % 64 + 128) % 64 = v := by omega
    rw [List.cons_append, decodeFrom, lead_four _ (by omega) (by omega)]
    dsimp only [List.cons_append, List.nil_append]
    have hlow := secondLow_cases (v / 262144 % 8 + 240)
    have hhigh := secondHigh_cases (v / 262144 % 8 + 240)
    rw [decodeFrom_more _ (by omega) (by omega) (by omega), decodeFrom_more _ (by omega) (by omega) (by omega),
      decodeFrom_last bs (by omega) (by omega) (by omega), hvalue, hchar]

theorem decode_encode (cs : List Char) : decode (encode cs) = cs := by
  unfold decode encode
  induction cs with
  | nil => rfl
  | cons c cs ih => rw [List.flatMap_cons, decodeFrom_encodeChar, ih]

end TinyScript.Text.Utf8
