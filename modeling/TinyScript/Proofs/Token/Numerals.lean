import TinyScript.Proofs.Counting
import TinyScript.Proofs.Token.Neighbours

/-!
# Numbers in a source

The number that a token stands for has no sign, and is one. Unless it is infinite, its text is again one of a token.
-/

namespace TinyScript.Number
open Decimal Float.Model Float.Model.UnpackedFloat

/-! ### Numbers without a sign -/

/-- A number without a sign, which may be infinite. -/
def Unsigned : UnpackedFloat → Prop
  | .notANumber => False
  | .infinity s | .zero s | .finite s _ _ _ => s = .positive

section
variable {u : UnpackedFloat} {m : Nat} {e : Int} {h : 0 < m}

theorem unsigned_roundWithAccuracy (m : Nat) (e : Int) (acc : Accuracy) :
    Unsigned (roundWithAccuracy Format.binary64 .positive m e acc) := by
  rw [roundWithAccuracy]
  dsimp only
  split <;> exact rfl

theorem Unsigned.mul (hu : Unsigned u) : Unsigned (UnpackedFloat.mul Format.binary64 u (.finite .positive m e h)) := by
  cases u with
  | notANumber => cases hu
  | infinity s | zero s =>
    obtain rfl : s = .positive := hu
    exact rfl
  | finite s =>
    obtain rfl : s = .positive := hu
    exact unsigned_roundWithAccuracy _ _ _

theorem Unsigned.div (hu : Unsigned u) : Unsigned (UnpackedFloat.div Format.binary64 u (.finite .positive m e h)) := by
  cases u with
  | notANumber => cases hu
  | infinity s | zero s =>
    obtain rfl : s = .positive := hu
    exact rfl
  | finite s =>
    obtain rfl : s = .positive := hu
    exact unsigned_roundWithAccuracy _ _ _

theorem unsigned_ofScientific (n : Nat) (e : Int) : Unsigned (UnpackedFloat.ofScientific Format.binary64 n e) := by
  rw [UnpackedFloat.ofScientific]
  split
  · exact rfl
  split
  · exact rfl
  split
  · exact rfl
  split
  · exact Unsigned.mul (u := .finite .positive _ _ _) rfl
  · exact Unsigned.div (u := .finite .positive _ _ _) rfl

theorem unsigned_counted (n : Nat) : Unsigned (counted n) := by
  rw [counted]
  split <;> exact rfl

theorem Unsigned.pack (hu : Unsigned u) : ∃ e m,
    UnpackedFloat.pack Format.binary64 u = packComponents Format.binary64 .positive e m ∧ (e.toNat = 2047 → m = 0) := by
  cases u with
  | notANumber => cases hu
  | infinity s | zero s =>
    obtain rfl : s = .positive := hu
    exact ⟨_, _, rfl, fun _ => rfl⟩
  | finite s m e =>
    obtain rfl : s = .positive := hu
    rw [UnpackedFloat.pack]
    dsimp only
    split
    · exact ⟨_, _, rfl, fun _ => rfl⟩
    · next hsmall =>
      split
      · refine ⟨_, _, rfl, fun hinfinite => ?_⟩
        have hsmall : ¬ 2048 ≤ _ + 1 := hsmall
        rw [BitVec.toNat_ofNat, Nat.mod_eq_of_lt (by show _ < 2048; omega)] at hinfinite
        omega
      · exact ⟨_, _, rfl, nofun⟩

end

/-- A double without a sign. -/
def IsUnsigned (x : Float) : Prop :=
  ∃ u, Unsigned u ∧ x.toModel = Float.Model.pack u

theorem unpack_power (e : Nat) (he : e < 23) : ∃ m e' h,
    (getElem Float.exactlyRepresentablePowersOfTen e he).toModel.unpack = .finite .positive m e' h := by
  have hall : ∀ e : Fin 23, ∃ m e' h,
      (getElem Float.exactlyRepresentablePowersOfTen e.val e.isLt).toModel.unpack = .finite .positive m e' h := by
    intro e
    fin_cases e <;> exact ⟨_, _, _, rfl⟩
  exact hall ⟨e, he⟩

theorem unpack_toFloat {n : Nat} (hn : n < Nat.pow 2 53) : n.toUInt64.toFloat.toModel.unpack = counted n := by
  have hword : n.toUInt64.toNat = n := UInt64.toNat_ofNat_of_lt' (Nat.lt_trans hn (by decide))
  have hnormal : UnpackedFloat.normalize Format.binary64 (n.toUInt64.toNat : Nat) 0 .positive = counted n := by
    rw [hword]
    exact normalize_shiftLeft (k := 0) (log2_le hn)
  show UnpackedFloat.unpack Format.binary64 (UnpackedFloat.pack Format.binary64
    (UnpackedFloat.normalize Format.binary64 (n.toUInt64.toNat : Nat) 0 .positive)) = _
  rw [hnormal, unpack_pack_counted (log2_le hn)]

theorem isUnsigned_ofScientific (n : Nat) (negative : Bool) (e : Nat) :
    IsUnsigned (Float.ofScientific n negative e) := by
  by_cases h : n < 2 ^ 53 ∧ e ≤ 22
  · obtain ⟨m, e', hm, hpower⟩ := unpack_power e (Nat.lt_succ_of_le h.2)
    have hn := unpack_toFloat h.1
    rw [Float.ofScientific, dif_pos h]
    cases negative with
    | false =>
      refine ⟨_, (unsigned_counted n).mul (m := m) (e := e') (h := hm), ?_⟩
      rw [← hn, ← hpower]
      rfl
    | true =>
      refine ⟨_, (unsigned_counted n).div (m := m) (e := e') (h := hm), ?_⟩
      rw [← hn, ← hpower]
      rfl
  · rw [Float.ofScientific, dif_neg h]
    exact ⟨_, unsigned_ofScientific n _, rfl⟩

theorem isUnsigned_nearest (digits : Nat) (exponent : Int) : IsUnsigned (nearest digits exponent) := by
  unfold nearest
  dsimp only
  split
  · exact ⟨.zero .positive, rfl, rfl⟩
  split
  · exact ⟨.infinity .positive, rfl, rfl⟩
  · exact isUnsigned_ofScientific _ _ _

/-- A number without a sign is finite, or it is written as infinity. -/
theorem IsUnsigned.parts {x : Float} (h : IsUnsigned x) :
    Decimal.parts x = .infinite false ∨ x.isFinite ∧ ∃ b, Decimal.parts x = .finite false b := by
  obtain ⟨u, hu, hx⟩ := h
  obtain ⟨e, m, hpack, hinfinite⟩ := hu.pack
  have hbits : x.toBits.toBitVec = packComponents Format.binary64 .positive e m := by
    rw [← hpack]
    exact congrArg (·.toBits.toBitVec) hx
  have hnat : x.toBits.toNat = e.toNat * 4503599627370496 + m.toNat := by
    have hnat : x.toBits.toNat = (0 * 2048 + e.toNat) * 4503599627370496 + m.toNat := by
      rw [← UInt64.toNat_toBitVec, hbits, toNat_packComponents]
      rfl
    rwa [Nat.zero_mul, Nat.zero_add] at hnat
  have he : e.toNat < 2048 := e.isLt
  have hm : m.toNat < 4503599627370496 := m.isLt
  have hnegative : (x.toBits.toNat / Nat.pow 2 63 == 1) = false := by
    show (x.toBits.toNat / 9223372036854775808 == 1) = false
    rw [beq_eq_false_iff_ne]
    omega
  have hfield : x.toBits.toNat / hiddenBit % Nat.pow 2 11 = e.toNat := by
    show x.toBits.toNat / 4503599627370496 % 2048 = e.toNat
    omega
  have hfraction : x.toBits.toNat % hiddenBit = m.toNat := by
    show x.toBits.toNat % 4503599627370496 = m.toNat
    omega
  rw [Decimal.parts, Parts.ofBits, hnegative, hfield, hfraction]
  by_cases hlarge : e.toNat = 2047
  · rw [if_pos hlarge, hinfinite hlarge]
    exact .inl rfl
  · refine .inr ⟨?_, ?_⟩
    · show (UnpackedFloat.unpack Format.binary64 x.toBits.toBitVec).isFinite = true
      have hne : e ≠ -1#11 := fun h => hlarge (congrArg BitVec.toNat h)
      rw [hbits, UnpackedFloat.unpack]
      simp only [unpackExponent_packComponents, unpackMantissa_packComponents]
      rw [if_neg hne]
      split
      · split <;> rfl
      · rfl
    · rw [if_neg hlarge]
      dsimp only
      split <;> exact ⟨_, rfl⟩

/-! ### Their texts -/

theorem spells_digits {ds more : List Char} (hds : ∀ d ∈ ds, d.isDigit) (hne : ds ≠ [])
    (hmore : ∀ d ∈ more, d.isDigit || d == '.') : TokenKind.numLit.Spells (String.ofList (ds ++ more)) := by
  obtain ⟨d, ds, rfl⟩ := List.exists_cons_of_ne_nil hne
  obtain ⟨hd, hds⟩ := List.forall_mem_cons.1 hds
  refine ⟨d, ds ++ more, String.toList_ofList, hd, fun c hc => ?_⟩
  rcases List.mem_append.1 hc with hc | hc
  · rw [hds c hc, Bool.true_or]
  · exact hmore c hc

/-- Digits before and after a point are digits, and there are some before it. -/
theorem pointed_digits {ds : List Char} (hds : ∀ d ∈ ds, d.isDigit) (places : Nat) :
    (pointed ds places).1 ≠ [] ∧ (∀ d ∈ (pointed ds places).1, d.isDigit) ∧ ∀ d ∈ (pointed ds places).2, d.isDigit := by
  unfold pointed
  dsimp only
  obtain ⟨all, hall⟩ : ∃ all, all = List.replicate (places + 1 - ds.length) '0' ++ ds := ⟨_, rfl⟩
  have hdigits : ∀ d ∈ all, d.isDigit := by
    intro d hd
    rw [hall] at hd
    rcases List.mem_append.1 hd with hd | hd
    · rw [List.eq_of_mem_replicate hd]
      rfl
    · exact hds d hd
  have hlength : places + 1 ≤ all.length := by
    rw [hall, List.length_append, List.length_replicate]
    omega
  rw [← hall]
  refine ⟨List.ne_nil_of_length_pos ?_, fun d hd => hdigits d (List.mem_of_mem_take hd),
    fun d hd => hdigits d (List.mem_of_mem_drop hd)⟩
  rw [List.length_take]
  omega

theorem stripZeros_subset (ds : List Char) : stripZeros ds ⊆ ds := by
  intro d hd
  have hd := (List.dropWhile_sublist _).subset (List.mem_reverse.1 hd)
  exact List.mem_reverse.1 hd

theorem spells_positional (d : Numeral) : TokenKind.numLit.Spells d.positional := by
  have hdigits (n : Nat) : ∀ c ∈ Nat.toDigits 10 n, c.isDigit := fun c hc =>
    Nat.isDigit_of_mem_toDigits (by decide) (by decide) hc
  unfold Numeral.positional
  split
  · have h := spells_digits (hdigits (d.digits * Nat.pow 10 d.exponent.toNat)) Nat.toDigits_ne_nil
      (fun c hc => absurd hc List.not_mem_nil)
    rwa [List.append_nil] at h
  · obtain ⟨hne, hwhole, hfraction⟩ := pointed_digits (hdigits d.digits) (-d.exponent).toNat
    dsimp only
    split
    · have h := spells_digits hwhole hne fun c hc => absurd hc List.not_mem_nil
      rwa [List.append_nil] at h
    · refine spells_digits hwhole hne fun c hc => ?_
      rcases List.mem_cons.1 hc with rfl | hc
      · rfl
      · rw [hfraction c (stripZeros_subset _ hc), Bool.true_or]

theorem readFinite?_eq_some {negative : Bool} {cs : List Char} {r : Reading} (h : readFinite? negative cs = some r) :
    ∃ digits e, r = .finite negative digits e := by
  rw [readFinite?, Option.ite_none_left_eq_some] at h
  obtain ⟨e, -, rfl⟩ := Option.map_eq_some_iff.1 h.2
  exact ⟨_, _, rfl⟩

theorem toLower_of_isDigit {c : Char} (h : c.isDigit) : c.toLower = c := by
  have hsmall : ¬ (c.val ≥ 'A'.val ∧ c.val ≤ 'Z'.val) := by
    intro hupper
    have hlow : 65 ≤ c.toNat := UInt32.le_iff_toNat_le.1 hupper.1
    have hhigh := (TokenKind.toNat_of_isDigit h).2
    omega
  rw [Char.toLower, dif_neg hsmall]

/-- What is read from a token is no negative number, and a number. -/
theorem isUnsigned_of_readFloat? {literal : String} {x : Float} (h : TokenKind.numLit.Spells literal)
    (hx : readFloat? literal = some x) : IsUnsigned x := by
  obtain ⟨c, cs, hchars, hdigit, -⟩ := h
  obtain ⟨r, hr, rfl⟩ := Option.map_eq_some_iff.1 hx
  have hsign : c ≠ '-' ∧ c ≠ '+' := by
    constructor <;>
    · rintro rfl
      cases hdigit
  have hnan : String.ofList ((c :: cs).map Char.toLower) ≠ "nan" := by
    intro hnan
    have hlist := congrArg String.toList hnan
    rw [String.toList_ofList] at hlist
    have hlower : c.toLower = 'n' := List.head_eq_of_cons_eq hlist
    rw [toLower_of_isDigit hdigit] at hlower
    rw [hlower] at hdigit
    cases hdigit
  simp only [read?, hchars, List.head?_cons, Option.some.injEq, hsign, decide_false, or_self, if_false, hnan] at hr
  split at hr
  · next hfinite =>
    cases hr
    obtain ⟨digits, e, rfl⟩ := readFinite?_eq_some hfinite
    exact isUnsigned_nearest digits e
  · split at hr <;> cases hr
    exact ⟨.infinity .positive, rfl, rfl⟩

/-- The text of a number that a token stands for is one of a token, unless the number is infinite. -/
theorem text_of_readFloat? {literal : String} {x : Float} (h : TokenKind.numLit.Spells literal)
    (hx : readFloat? literal = some x) : text x = "+Inf" ∨ x.isFinite ∧ TokenKind.numLit.Spells (text x) := by
  rcases (isUnsigned_of_readFloat? h hx).parts with hparts | ⟨hfinite, b, hparts⟩
  · exact .inl (by rw [text, hparts]; rfl)
  · refine .inr ⟨hfinite, ?_⟩
    rw [text, hparts]
    dsimp only
    rw [if_neg Bool.false_ne_true]
    split
    · exact ⟨'0', [], rfl, rfl, nofun⟩
    · exact spells_positional _

end TinyScript.Number
