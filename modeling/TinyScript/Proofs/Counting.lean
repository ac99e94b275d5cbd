import Mathlib
import TinyScript.Proofs.Access.Places
import TinyScript.Proofs.Equality

/-!
# Counting in doubles

A natural number with at most 53 binary digits is a double as it is: its leading digit goes to place 52, and
the exponent says how far it went (`Number.counted`). Conversion and addition give that form and lose
nothing (`Number.unpack_ofNat`, `Number.ofNat_add`), and a number in that form denotes the place that it
counts (`Number.resolveInt_ofNat`). No natural number is equal to a negative one, however large.
-/

namespace TinyScript.Number

open Float.Model Float.Model.UnpackedFloat

/-! ### Leading digits -/

section
variable {n k : Nat}

theorem log2_shiftLeft (hn : n ≠ 0) : (n <<< k).log2 = n.log2 + k := by
  induction k with
  | zero => rfl
  | succ k ih =>
    rw [Nat.shiftLeft_succ, Nat.log2_two_mul (Nat.shiftLeft_eq_zero_iff.not.2 hn), ih]
    rfl

theorem add_shiftLeft (m n k : Nat) : (m + n) <<< k = m <<< k + n <<< k := by
  rw [Nat.shiftLeft_eq, Nat.shiftLeft_eq, Nat.shiftLeft_eq, Nat.add_mul]

theorem log2_le_log2 (hn : n ≠ 0) (h : n ≤ k) : n.log2 ≤ k.log2 :=
  (Nat.le_log2 (by omega)).2 (Nat.le_trans (Nat.log2_self_le hn) h)

theorem log2_le (hn : n < Nat.pow 2 53) : n.log2 ≤ 52 := by
  by_cases hzero : n = 0
  · rw [hzero]
    decide
  · exact Nat.le_of_lt_succ ((Nat.log2_lt hzero).2 hn)

end

/-- The natural number with its leading digit at place 52. -/
def mantissa (n : Nat) : Nat :=
  n <<< (52 - n.log2)

theorem mantissa_pos {n : Nat} (hn : n ≠ 0) : 0 < mantissa n :=
  Nat.pos_of_ne_zero (Nat.shiftLeft_eq_zero_iff.not.2 hn)

theorem log2_mantissa {n : Nat} (hn : n ≠ 0) (hlog : n.log2 ≤ 52) : (mantissa n).log2 = 52 := by
  rw [mantissa, log2_shiftLeft hn]
  omega

/-- The natural number as a sign, a mantissa and an exponent. -/
def counted (n : Nat) : UnpackedFloat :=
  if h : n = 0 then .zero .positive
  else .finite .positive (mantissa n) (n.log2 - 52) (mantissa_pos h)

theorem finite_congr {s : Sign} {m m' : Nat} {e e' : Int} {h : 0 < m} {h' : 0 < m'} (hm : m = m') (he : e = e') :
    UnpackedFloat.finite s m e h = .finite s m' e' h' := by
  subst hm he
  rfl

theorem counted_of_ne {n : Nat} (hn : n ≠ 0) :
    counted n = .finite .positive (mantissa n) (n.log2 - 52) (mantissa_pos hn) :=
  dif_neg hn

/-! ### Rounding -/

section
variable {m j : Nat} {e : Int} {s : Sign}

/-- Shifting back what was shifted loses no digits. -/
theorem shiftRight_shiftLeft (m j : Nat) :
    (ExtendedMantissa.mk (m <<< j) false false) >>> j = ExtendedMantissa.mk m false false := by
  show j.repeat ExtendedMantissa.shiftRightOne _ = _
  induction j generalizing m with
  | zero => rfl
  | succ j ih =>
    rw [Nat.shiftLeft_succ_inside, Nat.repeat, ih]
    show ExtendedMantissa.mk (2 * m / 2) (2 * m % 2 != 0) false = _
    rw [Nat.mul_div_cancel_left m (by decide), Nat.mul_mod_right]
    rfl

theorem targetExponent_eq (hm : m.log2 = 52) (he : -1074 ≤ e) :
    Format.binary64.targetExponent (totalExponent (m <<< j) (e - j)) = e := by
  have hne : m ≠ 0 := by
    rintro rfl
    exact absurd hm (by decide)
  have hmin : Format.binary64.minExponent = -1074 := by decide
  have hbits : Format.binary64.mantissaBits = 53 := rfl
  rw [Format.targetExponent, totalExponent, log2_shiftLeft hne, hm, hmin, hbits]
  omega

theorem shiftToTargetExponent_shiftLeft (hm : m.log2 = 52) (he : -1074 ≤ e) :
    shiftToTargetExponent Format.binary64 (m <<< j) (e - j) .exact = (⟨m, false, false⟩, e) := by
  rw [shiftToTargetExponent, targetExponent_eq hm he, shiftToExponent,
    show (e - (e - (j : Int))).toNat = j by omega, Int.sub_add_cancel]
  exact congrArg (·, e) (shiftRight_shiftLeft m j)

theorem roundWithAccuracy_shiftLeft (hpos : 0 < m) (hm : m.log2 = 52) (he : -1074 ≤ e) :
    roundWithAccuracy Format.binary64 s (m <<< j) (e - j) .exact = .finite s m e hpos := by
  have hagain : shiftToTargetExponent Format.binary64 m e .exact = (⟨m, false, false⟩, e) := by
    have h := shiftToTargetExponent_shiftLeft (j := 0) hm he
    rwa [Nat.shiftLeft_zero, Int.natCast_zero, Int.sub_zero] at h
  have hrounded : (ExtendedMantissa.mk m false false).roundedMantissa = m := rfl
  rw [roundWithAccuracy, shiftToTargetExponent_shiftLeft hm he]
  dsimp only
  rw [hrounded, hagain]
  exact dif_neg (Nat.ne_of_gt hpos)

end

section
variable {n k : Nat}

/-- A natural number is rounded to itself, also if zeros were put behind it. -/
theorem round_shiftLeft (hn : n ≠ 0) (hlog : n.log2 ≤ 52) :
    UnpackedFloat.round Format.binary64 .positive (n <<< k) (-k) = counted n := by
  have htarget : Format.binary64.targetExponent (totalExponent (n <<< k) (-k)) = n.log2 - 52 := by
    have hmin : Format.binary64.minExponent = -1074 := by decide
    have hbits : Format.binary64.mantissaBits = 53 := rfl
    rw [Format.targetExponent, totalExponent, log2_shiftLeft hn, hmin, hbits]
    omega
  have hround (j : Nat) := roundWithAccuracy_shiftLeft (s := .positive) (j := j) (e := n.log2 - 52)
    (mantissa_pos hn) (log2_mantissa hn hlog) (by omega)
  rw [counted_of_ne hn, UnpackedFloat.round, htarget, decreaseExponent]
  dsimp only
  by_cases hk : k ≤ 52 - n.log2
  · -- more zeros are put behind the digits
    have hshift : (-(k : Int) - (n.log2 - 52)).toNat = 52 - n.log2 - k := by omega
    have hsum : n <<< k <<< (52 - n.log2 - k) = mantissa n := by
      rw [← Nat.shiftLeft_add, Nat.add_sub_cancel' hk, mantissa]
    have hexp : -(k : Int) - (52 - n.log2 - k : Nat) = n.log2 - 52 - (0 : Nat) := by omega
    rw [hshift, hsum, hexp]
    exact hround 0
  · have hshift : (-(k : Int) - (n.log2 - 52)).toNat = 0 := by omega
    have hsum : n <<< k = mantissa n <<< (k - (52 - n.log2)) := by
      rw [mantissa, ← Nat.shiftLeft_add, Nat.add_sub_cancel' (by omega)]
    have hexp : -(k : Int) - (0 : Nat) = n.log2 - 52 - (k - (52 - n.log2) : Nat) := by omega
    rw [hshift, Nat.shiftLeft_zero, hsum, hexp]
    exact hround _

theorem normalize_shiftLeft (hlog : n.log2 ≤ 52) :
    UnpackedFloat.normalize Format.binary64 (n <<< k : Nat) (-k) .positive = counted n := by
  by_cases hn : n = 0
  · subst hn
    rw [Nat.zero_shiftLeft]
    rfl
  · have hpos : compare ((n <<< k : Nat) : Int) 0 = .gt := by
      have : 0 < n <<< k := Nat.pos_of_ne_zero (Nat.shiftLeft_eq_zero_iff.not.2 hn)
      rw [compare_gt_iff_gt]
      omega
    rw [UnpackedFloat.normalize, hpos]
    exact round_shiftLeft hn hlog

end

/-! ### Bits -/

theorem toNat_packComponents (s : Sign) (e : BitVec 11) (m : BitVec 52) :
    (packComponents Format.binary64 s e m).toNat =
      (s.toBitVec.toNat * 2048 + e.toNat) * 4503599627370496 + m.toNat := by
  have hinner : (s.toBitVec ++ e).toNat = s.toBitVec.toNat * 2048 + e.toNat := by
    rw [BitVec.toNat_append, ← Nat.shiftLeft_add_eq_or_of_lt e.isLt, Nat.shiftLeft_eq]
  show (s.toBitVec ++ e ++ m).toNat = _
  rw [BitVec.toNat_append, ← Nat.shiftLeft_add_eq_or_of_lt m.isLt, Nat.shiftLeft_eq, hinner]

section
variable {n : Nat}

theorem mantissa_bounds (hn : n ≠ 0) (hlog : n.log2 ≤ 52) :
    4503599627370496 ≤ mantissa n ∧ mantissa n < 9007199254740992 :=
  (Nat.log2_eq_iff (Nat.ne_of_gt (mantissa_pos hn))).1 (log2_mantissa hn hlog)

theorem pack_counted (hn : n ≠ 0) (hlog : n.log2 ≤ 52) : UnpackedFloat.pack Format.binary64 (counted n) =
    packComponents Format.binary64 .positive (BitVec.ofNat 11 (n.log2 + 1023)) (BitVec.ofNat 52 (mantissa n)) := by
  have hbiased : ((n.log2 - 52 : Int) + (Format.binary64.exponentBias : Nat) + (52 : Nat)).toNat = n.log2 + 1023 := by
    have hbias : Format.binary64.exponentBias = 1023 := by decide
    rw [hbias]
    omega
  rw [counted_of_ne hn, UnpackedFloat.pack]
  dsimp only
  rw [hbiased, log2_mantissa hn hlog, if_neg (show ¬ 2048 ≤ n.log2 + 1023 + 1 by omega)]
  exact if_pos rfl

theorem unpack_pack_counted (hlog : n.log2 ≤ 52) :
    UnpackedFloat.unpack Format.binary64 (UnpackedFloat.pack Format.binary64 (counted n)) = counted n := by
  by_cases hn : n = 0
  · subst hn
    rfl
  · have hexp : (BitVec.ofNat 11 (n.log2 + 1023)).toNat = n.log2 + 1023 := Nat.mod_eq_of_lt (by omega)
    have hinfinite : BitVec.ofNat 11 (n.log2 + 1023) ≠ -1#11 := fun h => by
      have : n.log2 + 1023 = 2047 := hexp.symm.trans (congrArg BitVec.toNat h)
      omega
    have hsmall : BitVec.ofNat 11 (n.log2 + 1023) ≠ 0#11 := fun h => by
      have : n.log2 + 1023 = 0 := hexp.symm.trans (congrArg BitVec.toNat h)
      omega
    have hmantissa : (1#1 ++ BitVec.ofNat 52 (mantissa n)).toNat = mantissa n := by
      obtain ⟨hlow, hhigh⟩ := mantissa_bounds hn hlog
      rw [BitVec.toNat_append, ← Nat.shiftLeft_add_eq_or_of_lt (BitVec.ofNat 52 (mantissa n)).isLt,
        BitVec.toNat_ofNat, Nat.shiftLeft_eq]
      show 1 * 4503599627370496 + mantissa n % 4503599627370496 = mantissa n
      omega
    rw [pack_counted hn hlog, UnpackedFloat.unpack]
    simp only [unpackMantissa_packComponents, unpackExponent_packComponents, unpackSign_packComponents,
      Sign.ofBitVec_toBitVec]
    rw [if_neg hinfinite, if_neg hsmall, counted_of_ne hn]
    refine finite_congr hmantissa ?_
    show (((BitVec.ofNat 11 (n.log2 + 1023)).toNat : Nat) : Int) - (1023 + 52) = n.log2 - 52
    rw [hexp]
    omega

end

/-! ### Operations -/

section
variable {n a b : Nat}

theorem mul_counted_one (hlog : n.log2 ≤ 52) :
    UnpackedFloat.mul Format.binary64 (counted n) (counted 1) = counted n := by
  by_cases hn : n = 0
  · subst hn
    rfl
  · have hone : counted 1 = .finite .positive (1 <<< 52) (-(52 : Nat)) (by decide) := rfl
    have hround := roundWithAccuracy_shiftLeft (s := .positive) (j := 52) (mantissa_pos hn)
      (log2_mantissa hn hlog) (show (-1074 : Int) ≤ n.log2 - 52 by omega)
    have hproduct : mantissa n * (1 <<< 52) = mantissa n <<< 52 := by
      rw [Nat.shiftLeft_eq (mantissa n), Nat.one_shiftLeft]
    rw [hone, counted_of_ne hn, UnpackedFloat.mul, hproduct]
    exact hround

/-- Numbers are added with as many digits as both have. -/
theorem add_counted (hlog : (a + b).log2 ≤ 52) :
    UnpackedFloat.add Format.binary64 (counted a) (counted b) = counted (a + b) := by
  by_cases ha : a = 0
  · subst ha
    rw [Nat.zero_add]
    by_cases hb : b = 0
    · subst hb
      rfl
    · rw [counted_of_ne hb]
      rfl
  by_cases hb : b = 0
  · subst hb
    rw [Nat.add_zero, counted_of_ne ha]
    rfl
  have halog : a.log2 ≤ 52 := Nat.le_trans (log2_le_log2 ha (Nat.le_add_right a b)) hlog
  have hblog : b.log2 ≤ 52 := Nat.le_trans (log2_le_log2 hb (Nat.le_add_left b a)) hlog
  obtain ⟨k, hk⟩ : ∃ k, k = max (52 - a.log2) (52 - b.log2) := ⟨_, rfl⟩
  have hmin : min ((a.log2 : Int) - 52) (b.log2 - 52) = -k := by omega
  have hdigits {m : Nat} (hm : 52 - m.log2 ≤ k) (hmlog : m.log2 ≤ 52) :
      (decreaseExponent (mantissa m) (m.log2 - 52) (-k)).1 = m <<< k := by
    have hshift : ((m.log2 - 52 : Int) - (-k)).toNat = k - (52 - m.log2) := by omega
    rw [decreaseExponent, hshift, mantissa]
    dsimp only
    rw [← Nat.shiftLeft_add, Nat.add_sub_cancel' hm]
  rw [counted_of_ne ha, counted_of_ne hb, UnpackedFloat.add]
  dsimp only
  rw [hmin, hdigits (by omega) halog, hdigits (by omega) hblog]
  show UnpackedFloat.normalize Format.binary64 (((a <<< k : Nat) : Int) + (b <<< k : Nat)) (-k) .positive = _
  rw [← Int.natCast_add, ← add_shiftLeft]
  exact normalize_shiftLeft hlog

theorem toModel_ofNat (hn : n < Nat.pow 2 53) : (Float.ofNat n).toModel = Float.Model.pack (counted n) := by
  have hlog := log2_le hn
  have hword : n.toUInt64.toNat = n := UInt64.toNat_ofNat_of_lt' (Nat.lt_trans hn (by decide))
  have hconvert : n.toUInt64.toFloat.toModel.unpack = counted n := by
    have hnormal : UnpackedFloat.normalize Format.binary64 (n.toUInt64.toNat : Nat) 0 .positive = counted n := by
      rw [hword]
      exact normalize_shiftLeft (k := 0) hlog
    show UnpackedFloat.unpack Format.binary64 (UnpackedFloat.pack Format.binary64
      (UnpackedFloat.normalize Format.binary64 (n.toUInt64.toNat : Nat) 0 .positive)) = _
    rw [hnormal, unpack_pack_counted hlog]
  have hone : (Float.ofBits 0x3FF0000000000000).toModel.unpack = counted 1 := rfl
  have hsmall : n < 2 ^ 53 ∧ 0 ≤ 22 := ⟨hn, by decide⟩
  show (Float.ofScientific n false 0).toModel = _
  rw [Float.ofScientific, dif_pos hsmall]
  show Float.Model.pack (UnpackedFloat.mul Format.binary64 n.toUInt64.toFloat.toModel.unpack
    (Float.ofBits 0x3FF0000000000000).toModel.unpack) = _
  rw [hconvert, hone, mul_counted_one hlog]

/-- Sums are exact as long as doubles count. -/
theorem ofNat_add (h : a + b < Nat.pow 2 53) : Float.ofNat a + Float.ofNat b = Float.ofNat (a + b) := by
  have ha : a < Nat.pow 2 53 := Nat.lt_of_le_of_lt (Nat.le_add_right a b) h
  have hb : b < Nat.pow 2 53 := Nat.lt_of_le_of_lt (Nat.le_add_left b a) h
  refine congrArg Float.ofModel ?_
  show Float.Model.pack (UnpackedFloat.add Format.binary64 (Float.ofNat a).toModel.unpack
    (Float.ofNat b).toModel.unpack) = (Float.ofNat (a + b)).toModel
  have hunpack {n : Nat} (hn : n < Nat.pow 2 53) : (Float.ofNat n).toModel.unpack = counted n := by
    rw [toModel_ofNat hn]
    exact unpack_pack_counted (log2_le hn)
  rw [hunpack ha, hunpack hb, add_counted (log2_le h), toModel_ofNat h]

/-! ### Integer values -/

theorem ofBits_normal {bits : UInt64} {f m : Nat} (hf : 0 < f ∧ f < 2047)
    (hm : 4503599627370496 ≤ m ∧ m < 9007199254740992)
    (hbits : bits.toNat = f * 4503599627370496 + (m - 4503599627370496)) :
    Decimal.Parts.ofBits bits = .finite false ⟨m, (f : Int) - 1075⟩ := by
  have hnegative : (bits.toNat / Nat.pow 2 63 == 1) = false := by
    show (bits.toNat / 9223372036854775808 == 1) = false
    rw [beq_eq_false_iff_ne]
    omega
  have hfield : bits.toNat / Decimal.hiddenBit % Nat.pow 2 11 = f := by
    show bits.toNat / 4503599627370496 % 2048 = f
    omega
  have hfraction : Decimal.hiddenBit + bits.toNat % Decimal.hiddenBit = m := by
    show 4503599627370496 + bits.toNat % 4503599627370496 = m
    omega
  have hexp : (f : Int) - 1 + Decimal.minExponent = f - 1075 := by
    show (f : Int) - 1 + -1074 = f - 1075
    omega
  rw [Decimal.Parts.ofBits, hfield, if_neg (by omega), if_neg (by omega), hnegative, hfraction, hexp]

theorem parts_ofNat_of_ne (hn : n ≠ 0) (h : n < Nat.pow 2 53) :
    Decimal.parts (Float.ofNat n) = .finite false ⟨mantissa n, n.log2 - 52⟩ := by
  have hlog := log2_le h
  have hbounds := mantissa_bounds hn hlog
  have hbits : (Float.ofNat n).toBits.toNat =
      (n.log2 + 1023) * 4503599627370496 + (mantissa n - 4503599627370496) := by
    show (Float.ofNat n).toModel.toBits.toNat = _
    rw [toModel_ofNat h]
    show (UnpackedFloat.pack Format.binary64 (counted n)).toNat = _
    rw [pack_counted hn hlog, toNat_packComponents]
    show (0 * 2048 + (n.log2 + 1023) % 2048) * 4503599627370496 + mantissa n % 4503599627370496 = _
    omega
  have hexp : ((n.log2 + 1023 : Nat) : Int) - 1075 = n.log2 - 52 := by omega
  rw [Decimal.parts, ofBits_normal (by omega) hbounds hbits, hexp]

theorem ratio_pos (b : Decimal.Binary) : 0 < b.ratio.2 := by
  rw [Decimal.Binary.ratio]
  split
  · exact Nat.one_pos
  · exact Nat.two_pow_pos _

/-- What a natural number stands for as a double. -/
theorem parts_ofNat (h : n < Nat.pow 2 53) :
    ∃ b, Decimal.parts (Float.ofNat n) = .finite false b ∧ b.ratio.1 = n * b.ratio.2 := by
  by_cases hn : n = 0
  · subst hn
    exact ⟨⟨0, -1074⟩, rfl, (Nat.zero_mul _).symm⟩
  · have hlog := log2_le h
    refine ⟨_, parts_ofNat_of_ne hn h, ?_⟩
    by_cases hzero : n.log2 = 52
    · rw [mantissa, hzero]
      rfl
    · have hmantissa : mantissa n = n * Nat.pow 2 (52 - n.log2) := Nat.shiftLeft_eq _ _
      have hneg : ¬ (0 : Int) ≤ n.log2 - 52 := by omega
      have hexp : (-((n.log2 : Int) - 52)).toNat = 52 - n.log2 := by omega
      rw [Decimal.Binary.ratio, if_neg hneg, hexp, hmantissa]

/-- A natural number is an integer as a double, and the same one. -/
theorem toInt64_ofNat (h : n < Nat.pow 2 53) :
    isInteger (Float.ofNat n) ∧ toInt64 (Float.ofNat n) = n := by
  obtain ⟨b, hparts, hratio⟩ := parts_ofNat h
  have hwhole : whole (Float.ofNat n) = n := by
    rw [whole, hparts]
    show ((b.ratio.1 / b.ratio.2 : Nat) : Int) = n
    rw [hratio, Nat.mul_div_cancel n (ratio_pos b)]
  refine ⟨?_, ?_⟩
  · rw [isInteger, hparts]
    show (b.ratio.1 % b.ratio.2 == 0) = true
    rw [hratio, Nat.mul_mod_left]
    rfl
  · have h : n < 9007199254740992 := h
    rw [toInt64, clamp, hparts, hwhole]
    dsimp only
    omega

/-- What counts elements denotes the place after them. -/
theorem resolve_ofNat {len : Nat} (hn : n ≤ len) (h : n < Nat.pow 2 53) :
    Index.resolve (Float.ofNat n) len true = .ok n := by
  obtain ⟨hint, hvalue⟩ := toInt64_ofNat h
  rw [Index.resolve_eq hint, Index.resolveInt_eq_ok_iff, hvalue]
  refine ⟨by omega, ?_, ?_⟩
  · show (n : Int) ≤ len
    omega
  · rw [if_neg (by omega)]

end

/-! ### Signs -/

/-- Packed numbers without a minus sign are not equal to a negative one. -/
theorem compare_packComponents (e : BitVec 11) (m : BitVec 52) {m' : Nat} {e' : Int} {h : 0 < m'} :
    (UnpackedFloat.unpack Format.binary64 (packComponents Format.binary64 .positive e m)).compare
      (.finite .negative m' e' h) ≠ some .eq := by
  have hgreater : (some Ordering.gt) ≠ some .eq := by decide
  have hnone : none ≠ some Ordering.eq := by decide
  rw [UnpackedFloat.unpack]
  simp only [unpackSign_packComponents, Sign.ofBitVec_toBitVec]
  split
  · split
    · exact hgreater
    · exact hnone
  · split
    · split <;> exact hgreater
    · exact hgreater

theorem pack_roundWithAccuracy (m : Nat) (e : Int) (acc : Accuracy) : ∃ e' m',
    UnpackedFloat.pack Format.binary64 (roundWithAccuracy Format.binary64 .positive m e acc) =
      packComponents Format.binary64 .positive e' m' := by
  rw [roundWithAccuracy]
  dsimp only
  split
  · exact ⟨_, _, rfl⟩
  · rw [UnpackedFloat.pack]
    dsimp only
    split
    · exact ⟨_, _, rfl⟩
    · split <;> exact ⟨_, _, rfl⟩

theorem pack_ofScientific (n : Nat) : ∃ e m,
    UnpackedFloat.pack Format.binary64 (UnpackedFloat.ofScientific Format.binary64 n 0) =
      packComponents Format.binary64 .positive e m := by
  rw [UnpackedFloat.ofScientific]
  split
  · exact ⟨_, _, rfl⟩
  split
  · exact ⟨_, _, rfl⟩
  split
  · exact ⟨_, _, rfl⟩
  rw [if_pos (Int.le_refl 0), UnpackedFloat.mul]
  exact pack_roundWithAccuracy _ _ _

/-- Natural numbers have no minus sign, not even if they are too large to be exact. -/
theorem pack_ofNat (n : Nat) : ∃ e m,
    (Float.ofNat n).toModel.toBits.toBitVec = packComponents Format.binary64 .positive e m := by
  by_cases h : n < Nat.pow 2 53
  · rw [toModel_ofNat h]
    by_cases hn : n = 0
    · subst hn
      exact ⟨_, _, rfl⟩
    · exact ⟨_, _, pack_counted hn (log2_le h)⟩
  · have hlarge : ¬ (n < 2 ^ 53 ∧ 0 ≤ 22) := fun h' => h h'.1
    have hmodel : (Float.ofNat n).toModel.toBits.toBitVec =
        UnpackedFloat.pack Format.binary64 (UnpackedFloat.ofScientific Format.binary64 n 0) := by
      show (Float.ofScientific n false 0).toModel.toBits.toBitVec = _
      rw [Float.ofScientific, dif_neg hlarge]
      rfl
    rw [hmodel]
    exact pack_ofScientific n

theorem ofNat_ne_neg_one (n : Nat) : (Float.ofNat n == -1.0) = false := by
  obtain ⟨e, m, hbits⟩ := pack_ofNat n
  have hneg : (-1.0 : Float).toModel.unpack = .finite .negative 4503599627370496 (-52) (by decide) := rfl
  rw [Bool.eq_false_iff]
  intro h
  rw [beq_iff, hneg, Float.Model.unpack, hbits] at h
  exact compare_packComponents e m h

end TinyScript.Number
