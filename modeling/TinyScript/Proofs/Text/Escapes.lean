import Mathlib.Data.List.Forall2
import Mathlib.Data.List.Induction
import Mathlib.Data.Nat.Digits.Defs
import TinyScript.Proofs.Text.Quoting

/-!
# Which bodies of string literals can be read

A body can be read if and only if it is put together from plain characters and escapes
(`unquote_isSome_iff`). `Piece` is one of them. It leaves open what stands in the field of an escape by
hexadecimal digits: a plus sign can take the place of the first digit there (`SignedField`), and nothing
else but digits can (`Field`).
-/

namespace TinyScript.Text

/-! ### Numerals -/

/-- `c` is the digit of value `v`, in lower or upper case. -/
def DigitOf (c : Char) (v : Nat) : Prop :=
  c = hexDigit v ∨ c = (hexDigit v).toUpper

/-- The characters `cs` are digits, the last one the least significant, and stand for `n`. -/
def Numeral (base : Nat) (cs : List Char) (n : Nat) : Prop :=
  ∃ vs, List.Forall₂ (fun c v => v < base ∧ DigitOf c v) cs.reverse vs ∧ n = Nat.ofDigits base vs

/-- A field of hexadecimal digits. -/
def Field (width : Nat) (cs : List Char) (n : Nat) : Prop :=
  cs.length = width ∧ Numeral 16 cs n

/-- A field of hexadecimal digits, the first of which can be left out for a plus sign. -/
def SignedField (width : Nat) (cs : List Char) (n : Nat) : Prop :=
  Field width cs n ∨ ∃ ds, cs = '+' :: ds ∧ ds.length + 1 = width ∧ Numeral 16 ds n

theorem digitValue?_of_digitOf {base : Nat} (hbase : base ≤ 16) {c : Char} {v : Nat} (hv : v < base)
    (h : DigitOf c v) : digitValue? base c = some v := by
  have hall : ∀ v < 16, digitValue? 16 (hexDigit v) = some v ∧ digitValue? 16 (hexDigit v).toUpper = some v := by
    decide
  have h16 : digitValue? 16 c = some v := by
    obtain ⟨hlower, hupper⟩ := hall v (Nat.lt_of_lt_of_le hv hbase)
    rcases h with rfl | rfl
    · exact hlower
    · exact hupper
  unfold digitValue? at h16 ⊢
  obtain ⟨hvalue, -⟩ := Option.filter_eq_some_iff.1 h16
  exact Option.filter_eq_some_iff.2 ⟨hvalue, decide_eq_true hv⟩

theorem digitOf_of_digitValue? {base : Nat} {c : Char} {v : Nat} (h : digitValue? base c = some v) :
    v < base ∧ DigitOf c v := by
  obtain ⟨hvalue, hv⟩ := Option.filter_eq_some_iff.1 h
  refine ⟨of_decide_eq_true hv, ?_⟩
  have hrange {lo hi : Char} (hc : lo ≤ c ∧ c ≤ hi) : lo.toNat ≤ c.toNat ∧ c.toNat ≤ hi.toNat := hc
  have hself : c = Char.ofNat c.toNat := (Char.ofNat_toNat c).symm
  split at hvalue
  · next hc =>
    have hbounds : 48 ≤ c.toNat ∧ c.toNat ≤ 57 := hrange hc
    obtain rfl := Option.some.inj hvalue
    refine .inl (hself.trans ?_)
    rw [hexDigit, if_pos (by omega), Nat.add_sub_cancel' hbounds.1]
  split at hvalue
  · next hc =>
    have hbounds : 97 ≤ c.toNat ∧ c.toNat ≤ 102 := hrange hc
    obtain rfl := Option.some.inj hvalue
    refine .inl (hself.trans ?_)
    rw [hexDigit, if_neg (by omega), Nat.add_sub_cancel' (by omega)]
  split at hvalue
  · next hc =>
    have hbounds : 65 ≤ c.toNat ∧ c.toNat ≤ 70 := hrange hc
    obtain rfl := Option.some.inj hvalue
    have hupper : ∀ n ≤ 70, 65 ≤ n → Char.ofNat n = (hexDigit (n - 55)).toUpper := by decide
    exact .inr (hself.trans (hupper _ hbounds.2 hbounds.1))
  · cases hvalue

theorem digitValue?_eq_some_iff {base : Nat} (hbase : base ≤ 16) {c : Char} {v : Nat} :
    digitValue? base c = some v ↔ v < base ∧ DigitOf c v :=
  ⟨digitOf_of_digitValue?, fun h => digitValue?_of_digitOf hbase h.1 h.2⟩

theorem digits?_append (base : Nat) (cs : List Char) (c : Char) :
    digits? base (cs ++ [c]) = (digits? base cs).bind fun n => (digitValue? base c).map (n * base + ·) := by
  simp [digits?, List.foldlM_append]

/-- What is read as a number is a numeral. -/
theorem digits?_eq_some_iff {base : Nat} (hbase : base ≤ 16) {cs : List Char} {n : Nat} :
    digits? base cs = some n ↔ Numeral base cs n := by
  induction cs using List.reverseRecOn generalizing n with
  | nil => simp [digits?, Numeral, eq_comm]
  | append_singleton cs c ih =>
    have hcons (v : Nat) (vs : List Nat) :
        Nat.ofDigits base (v :: vs) = Nat.ofDigits base vs * base + v := by
      rw [Nat.ofDigits_cons, Nat.mul_comm, Nat.add_comm]
    simp only [digits?_append, Option.bind_eq_some_iff, Option.map_eq_some_iff, ih,
      digitValue?_eq_some_iff hbase, Numeral, List.reverse_append, List.reverse_singleton,
      List.singleton_append, List.forall₂_cons_left_iff]
    constructor
    · rintro ⟨_, ⟨vs, hvs, rfl⟩, v, hv, rfl⟩
      exact ⟨v :: vs, ⟨v, vs, hv, hvs, rfl⟩, (hcons v vs).symm⟩
    · rintro ⟨_, ⟨v, vs, hv, hvs, rfl⟩, rfl⟩
      exact ⟨_, ⟨vs, hvs, rfl⟩, v, hv, (hcons v vs).symm⟩

theorem not_numeral_plus {base : Nat} (hbase : base ≤ 16) {ds : List Char} {n : Nat} :
    ¬ Numeral base ('+' :: ds) n := by
  have hplus : digitValue? base '+' = none := by simp [digitValue?]
  rw [← digits?_eq_some_iff hbase]
  simp [digits?, hplus]

/-- The numbers that can stand in a field of hexadecimal digits. -/
theorem numeral?_eq_some_iff {width : Nat} (hwidth : 2 ≤ width) {cs : List Char} (hlength : cs.length = width)
    {n : Nat} : numeral? 16 cs = some n ↔ SignedField width cs n := by
  unfold numeral?
  by_cases hplus : cs.head? = some '+'
  · obtain ⟨ds, rfl⟩ := List.head?_eq_some_iff.1 hplus
    have hds : ds.isEmpty = false := by
      cases ds with
      | nil => simp at hlength; omega
      | cons => rfl
    simp only [List.head?_cons, if_true, List.tail_cons, hds, Bool.false_eq_true, if_false,
      digits?_eq_some_iff (Nat.le_refl 16), SignedField, Field, not_numeral_plus (Nat.le_refl 16), and_false,
      false_or, List.cons.injEq, true_and]
    exact ⟨fun h => ⟨ds, rfl, hlength, h⟩, fun ⟨_, heq, _, h⟩ => heq ▸ h⟩
  · have hcs : cs.isEmpty = false := by
      cases cs with
      | nil => simp at hlength; omega
      | cons => rfl
    simp only [hplus, if_false, hcs, Bool.false_eq_true, digits?_eq_some_iff (Nat.le_refl 16)]
    refine ⟨fun h => .inl ⟨hlength, h⟩, ?_⟩
    rintro (h | ⟨ds, rfl, -⟩)
    · exact h.2
    · exact absurd rfl hplus

/-! ### Pieces of a body -/

/-- A character that stands for itself, or an escape. What can stand in a field of hexadecimal digits is
left to `field`. -/
inductive Piece (field : (width : Nat) → List Char → Nat → Prop) : List Char → Prop where
  | plain {c : Char} (h : c ≠ '\\') : Piece field [c]
  /-- An escape of one letter. -/
  | letter {o : Char} (h : o ∈ ['a', 'b', 'f', 'n', 'r', 't', 'v', '\\', '"']) : Piece field ['\\', o]
  /-- A byte by two hexadecimal digits. -/
  | byte {cs : List Char} {n : Nat} (h : field 2 cs n) : Piece field ('\\' :: 'x' :: cs)
  /-- A byte by three octal digits. -/
  | octal {cs : List Char} {n : Nat} (hlength : cs.length = 3) (h : Numeral 8 cs n) (hn : n ≤ 255) :
    Piece field ('\\' :: cs)
  /-- A character by the four hexadecimal digits of its code point. -/
  | short {cs : List Char} {n : Nat} (h : field 4 cs n) (hn : n.isValidChar) : Piece field ('\\' :: 'u' :: cs)
  /-- A character by the eight hexadecimal digits of its code point. -/
  | long {cs : List Char} {n : Nat} (h : field 8 cs n) (hn : n.isValidChar) : Piece field ('\\' :: 'U' :: cs)

/-- A text that is put together from pieces. -/
def Pieces (field : (width : Nat) → List Char → Nat → Prop) (cs : List Char) : Prop :=
  ∃ pieces : List (List Char), (∀ p ∈ pieces, Piece field p) ∧ cs = pieces.flatten

namespace Pieces
variable {field : (width : Nat) → List Char → Nat → Prop} {p cs : List Char}

theorem nil : Pieces field [] :=
  ⟨[], nofun, rfl⟩

theorem cons (hp : Piece field p) (h : Pieces field cs) : Pieces field (p ++ cs) := by
  obtain ⟨pieces, hpieces, rfl⟩ := h
  exact ⟨p :: pieces, List.forall_mem_cons.2 ⟨hp, hpieces⟩, rfl⟩

end Pieces

/-! ### Reading pieces -/

theorem unescape_byte (a b : Char) (rest : List Char) : unescape ('\\' :: 'x' :: a :: b :: rest) =
    (numeral? 16 [a, b]).bind fun n => (unescape rest).map (n.toUInt8 :: ·) := by
  rw [unescape]
  cases numeral? 16 [a, b] <;> cases unescape rest <;> rfl

theorem unescape_short (a b c d : Char) (rest : List Char) :
    unescape ('\\' :: 'u' :: a :: b :: c :: d :: rest) = (numeral? 16 [a, b, c, d]).bind fun n =>
      (codePoint? n).bind fun ch => (unescape rest).map (String.utf8EncodeChar ch ++ ·) := by
  rw [unescape]
  cases numeral? 16 [a, b, c, d] with
  | none => rfl
  | some n => cases hch : codePoint? n <;> cases unescape rest <;> simp [hch]

theorem unescape_long (a b c d e f g h : Char) (rest : List Char) :
    unescape ('\\' :: 'U' :: a :: b :: c :: d :: e :: f :: g :: h :: rest) =
      (numeral? 16 [a, b, c, d, e, f, g, h]).bind fun n =>
        (codePoint? n).bind fun ch => (unescape rest).map (String.utf8EncodeChar ch ++ ·) := by
  rw [unescape]
  cases numeral? 16 [a, b, c, d, e, f, g, h] with
  | none => rfl
  | some n => cases hch : codePoint? n <;> cases unescape rest <;> simp [hch]

/-- The octal digits are none of the letters after a backslash. -/
theorem octal_lead {c : Char} {v : Nat} (hv : v < 8) (h : DigitOf c v) :
    simpleEscape? c = none ∧ c ≠ 'x' ∧ c ≠ 'u' ∧ c ≠ 'U' := by
  have hall : ∀ v < 8, (hexDigit v).toUpper = hexDigit v ∧ simpleEscape? (hexDigit v) = none ∧
      hexDigit v ≠ 'x' ∧ hexDigit v ≠ 'u' ∧ hexDigit v ≠ 'U' := by
    decide
  obtain ⟨hsame, hnone⟩ := hall v hv
  rcases h with rfl | rfl
  · exact hnone
  · rw [hsame]
    exact hnone

theorem unescape_octal {o : Char} (hsimple : simpleEscape? o = none) (hx : o ≠ 'x') (hu : o ≠ 'u') (hU : o ≠ 'U')
    (p q : Char) (rest : List Char) : unescape ('\\' :: o :: p :: q :: rest) =
      (digits? 8 [o, p, q]).bind fun n => if n < 256 then (unescape rest).map (n.toUInt8 :: ·) else none := by
  rw [unescape, hsimple]
  · dsimp only
    cases digits? 8 [o, p, q] with
    | none => rfl
    | some n => by_cases hn : n < 256 <;> cases unescape rest <;> simp [hn, guard]
  all_goals simp [hx, hu, hU]

theorem SignedField.length_eq {width : Nat} {cs : List Char} {n : Nat} (h : SignedField width cs n) :
    cs.length = width := by
  rcases h with h | ⟨ds, rfl, hlength, -⟩
  · exact h.1
  · exact hlength

theorem codePoint?_eq_some {n : Nat} (hn : n.isValidChar) : codePoint? n = some (Char.ofNat n) :=
  if_pos hn

/-- A piece is read on its own. -/
theorem isSome_unescape_piece {p : List Char} (h : Piece SignedField p) (rest : List Char) :
    (unescape (p ++ rest)).isSome = (unescape rest).isSome := by
  cases h with
  | plain h => simp [unescape_plain h]
  | @letter o h =>
    have hall : (['a', 'b', 'f', 'n', 'r', 't', 'v', '\\', '"'].all fun o =>
        simplyEscaped.any fun p => p.2 == o) = true := rfl
    obtain ⟨⟨c, _⟩, hc, heq⟩ := List.any_eq_true.1 (List.all_eq_true.1 hall o h)
    obtain rfl := eq_of_beq heq
    simp [unescape_simple hc]
  | @byte cs n h =>
    obtain ⟨a, b, rfl⟩ := List.length_eq_two.1 h.length_eq
    have hread := (numeral?_eq_some_iff (Nat.le_refl 2) rfl).2 h
    simp [unescape_byte, hread]
  | @octal cs n hlength h hn =>
    obtain ⟨o, p, q, rfl⟩ := List.length_eq_three.1 hlength
    have hread := (digits?_eq_some_iff (by decide)).2 h
    obtain ⟨vs, hvs, -⟩ := h
    obtain ⟨_, _, -, htwo, -⟩ := List.forall₂_cons_left_iff.1 hvs
    obtain ⟨_, _, -, hlead, -⟩ := List.forall₂_cons_left_iff.1 htwo
    obtain ⟨v, _, ⟨hv, ho⟩, -, -⟩ := List.forall₂_cons_left_iff.1 hlead
    obtain ⟨hsimple, hx, hu, hU⟩ := octal_lead hv ho
    simp [unescape_octal hsimple hx hu hU, hread, Nat.lt_succ_of_le hn]
  | @short cs n h hn =>
    obtain ⟨a, b, c, d, rfl⟩ : ∃ a b c d, cs = [a, b, c, d] := by
      match cs, h.length_eq with
      | [a, b, c, d], _ => exact ⟨a, b, c, d, rfl⟩
    have hread := (numeral?_eq_some_iff (Nat.le_add_left 2 2) rfl).2 h
    simp [unescape_short, hread, codePoint?_eq_some hn]
  | @long cs n h hn =>
    obtain ⟨a, b, c, d, e, f, g, i, rfl⟩ : ∃ a b c d e f g i, cs = [a, b, c, d, e, f, g, i] := by
      match cs, h.length_eq with
      | [a, b, c, d, e, f, g, i], _ => exact ⟨a, b, c, d, e, f, g, i, rfl⟩
    have hread := (numeral?_eq_some_iff (Nat.le_add_left 2 6) rfl).2 h
    simp [unescape_long, hread, codePoint?_eq_some hn]

theorem isSome_unescape_of_pieces {cs : List Char} (h : Pieces SignedField cs) : (unescape cs).isSome := by
  obtain ⟨pieces, hpieces, rfl⟩ := h
  induction pieces with
  | nil => rfl
  | cons p pieces ih =>
    obtain ⟨hp, hrest⟩ := List.forall_mem_cons.1 hpieces
    rw [List.flatten_cons, isSome_unescape_piece hp]
    exact ih hrest

theorem simpleEscape?_eq_some {o ch : Char} (h : simpleEscape? o = some ch) :
    o ∈ ['a', 'b', 'f', 'n', 'r', 't', 'v', '\\', '"'] := by
  unfold simpleEscape? at h
  split at h
  case h_10 => cases h
  all_goals decide

theorem isValidChar_of_codePoint? {n : Nat} {ch : Char} (h : codePoint? n = some ch) : n.isValidChar := by
  by_contra hn
  simp [codePoint?, hn] at h

/-- What has been read is made of pieces, one for each step. -/
theorem pieces_of_unescape {cs : List Char} {bytes : List UInt8} (h : unescape cs = some bytes) :
    Pieces SignedField cs := by
  fun_induction unescape cs generalizing bytes with
  | case1 => exact .nil
  | case2 a b rest ih =>
    obtain ⟨n, hn, hrest⟩ := Option.bind_eq_some_iff.1 h
    obtain ⟨_, htail, -⟩ := Option.bind_eq_some_iff.1 hrest
    exact .cons (.byte ((numeral?_eq_some_iff (Nat.le_refl 2) rfl).1 hn)) (ih htail)
  | case3 a b c d rest ih =>
    obtain ⟨n, hn, hread⟩ := Option.bind_eq_some_iff.1 h
    obtain ⟨_, hch, hrest⟩ := Option.bind_eq_some_iff.1 hread
    obtain ⟨_, htail, -⟩ := Option.bind_eq_some_iff.1 hrest
    have hfield := (numeral?_eq_some_iff (Nat.le_add_left 2 2) rfl).1 hn
    exact .cons (.short hfield (isValidChar_of_codePoint? hch)) (ih htail)
  | case4 a b c d e f g i rest ih =>
    obtain ⟨n, hn, hread⟩ := Option.bind_eq_some_iff.1 h
    obtain ⟨_, hch, hrest⟩ := Option.bind_eq_some_iff.1 hread
    obtain ⟨_, htail, -⟩ := Option.bind_eq_some_iff.1 hrest
    have hfield := (numeral?_eq_some_iff (Nat.le_add_left 2 6) rfl).1 hn
    exact .cons (.long hfield (isValidChar_of_codePoint? hch)) (ih htail)
  | case5 o rest _ _ _ ch hsimple ih =>
    obtain ⟨_, htail, -⟩ := Option.map_eq_some_iff.1 h
    exact .cons (.letter (simpleEscape?_eq_some hsimple)) (ih htail)
  | case6 o _ p q rest _ _ _ ih =>
    obtain ⟨n, hn, hread⟩ := Option.bind_eq_some_iff.1 h
    obtain ⟨_, hguard, hrest⟩ := Option.bind_eq_some_iff.1 hread
    obtain ⟨_, htail, -⟩ := Option.bind_eq_some_iff.1 hrest
    have hnum : Numeral 8 [o, p, q] n := (digits?_eq_some_iff (Nat.le_add_left 8 8)).1 hn
    have hlt : n < 256 := by simpa [guard] using hguard
    exact .cons (.octal rfl hnum (Nat.le_of_lt_succ hlt)) (ih htail)
  | case7 => cases h
  | case8 => cases h
  | case9 c rest _ _ _ hescape hend ih =>
    obtain ⟨_, htail, -⟩ := Option.map_eq_some_iff.1 h
    have hc : c ≠ '\\' := by
      rintro rfl
      cases rest with
      | nil => exact hend rfl rfl
      | cons o rest => exact hescape o rest rfl rfl
    exact .cons (.plain hc) (ih htail)

/-- The bodies that can be read are the texts put together from pieces, where a plus sign may stand for the
first hexadecimal digit of a field. -/
theorem unquote_isSome_iff (raw : List Char) : (unquote raw).isSome ↔ Pieces SignedField raw := by
  rw [unquote, Option.isSome_map]
  refine ⟨fun h => ?_, isSome_unescape_of_pieces⟩
  obtain ⟨bytes, hbytes⟩ := Option.isSome_iff_exists.1 h
  exact pieces_of_unescape hbytes

/-- A plus sign takes the place of a digit, so that a body is read which has no escape of two digits. -/
theorem plusField_not_iff :
    ¬ ((unquote ['\\', 'x', '+', '1']).isSome ↔ Pieces Field ['\\', 'x', '+', '1']) := by
  have hread : (unquote ['\\', 'x', '+', '1']).isSome := by
    rw [unquote, Option.isSome_map]
    decide +kernel
  rintro ⟨hpieces, -⟩
  obtain ⟨pieces, hpieces, heq⟩ := hpieces hread
  cases pieces with
  | nil => cases heq
  | cons p pieces =>
    rw [List.flatten_cons] at heq
    cases hpieces p List.mem_cons_self with
    | plain hc => exact hc (List.cons.inj heq).1.symm
    | @letter o ho =>
      obtain rfl : 'x' = o := (List.cons.inj (List.cons.inj heq).2).1
      exact absurd ho (by decide)
    | @byte cs n hcs =>
      obtain ⟨hlength, hnum⟩ := hcs
      obtain ⟨a, b, rfl⟩ := List.length_eq_two.1 hlength
      obtain rfl : '+' = a := (List.cons.inj (List.cons.inj (List.cons.inj heq).2).2).1
      exact not_numeral_plus (Nat.le_refl 16) hnum
    | @octal cs n hlength hnum =>
      obtain ⟨a, b, c, rfl⟩ := List.length_eq_three.1 hlength
      obtain rfl : 'x' = a := (List.cons.inj (List.cons.inj heq).2).1
      have hdigits := (digits?_eq_some_iff (Nat.le_add_left 8 8)).2 hnum
      simp [digits?, digitValue?] at hdigits
    | short => exact absurd (List.cons.inj (List.cons.inj heq).2).1 (by decide)
    | long => exact absurd (List.cons.inj (List.cons.inj heq).2).1 (by decide)

end TinyScript.Text
