import Mathlib.Data.Finset.Prod
import Mathlib.Order.Compare
import TinyScript.Bytecode.Cell
import TinyScript.Proofs.Acyclic
import TinyScript.Proofs.Typing.Types

/-!
# Equality of values

Both equalities compare values one level at a time (`Value.Alike`, `Cell.Alike`), and the relation between
the parts is the equality with less fuel. A level is symmetric and transitive if that relation is, so both
equalities are, with any fuel. For the map on the right, which is only asked for the keys of the left one,
this is `Pairs.Matches.symm`: as many different keys are all keys.

A level that is the same array or map on both sides is not looked into, and nothing is asked about it, so
that an array is equal to itself also if it holds what is not a number.

The fuel is no limit (`Value.equals_eq_some_iff`, `Cell.equals_eq_some_iff`): what a comparison comes to
depends on a pair of arrays or of maps, and with each round of fuel that settles a pair at all, one pair
more is settled (`Leveled.lt_card`). Without cycles on one of its sides a comparison has an answer
(`Value.equals_isSome`, `Cell.equals_isSome`).
-/

namespace TinyScript

open Bytecode (Cell)
open Relation (ReflTransGen TransGen)

/-! ### Numbers -/

namespace Number
open Float.Model

theorem compare_sign_eq_eq_iff (s t : UnpackedFloat.Sign) : compare s t = .eq ↔ s = t := by
  cases s with
  | negative =>
    cases t with
    | negative => exact iff_of_true rfl rfl
    | positive => exact iff_of_false nofun nofun
  | positive =>
    cases t with
    | negative => exact iff_of_false nofun nofun
    | positive => exact iff_of_true rfl rfl

theorem compare_self {u : UnpackedFloat} (hu : u ≠ .notANumber) : u.compare u = some .eq := by
  cases u with
  | notANumber => exact absurd rfl hu
  | infinity s => exact congrArg some ((compare_sign_eq_eq_iff s s).2 rfl)
  | zero s => rfl
  | finite s m e =>
    have hparts : (compare e e).then (compare m m) = .eq :=
      Ordering.then_eq_eq.2 ⟨compare_eq_iff_eq.2 rfl, compare_eq_iff_eq.2 rfl⟩
    cases s with
    | negative => exact congrArg (fun o => some o.swap) hparts
    | positive => exact congrArg some hparts

theorem eq_of_compare_finite {s t : UnpackedFloat.Sign} {m m' : Nat} {e e' : Int} {hm : 0 < m}
    {hm' : 0 < m'} (h : (UnpackedFloat.finite s m e hm).compare (.finite t m' e' hm') = some .eq) :
    UnpackedFloat.finite s m e hm = .finite t m' e' hm' := by
  -- numbers of one sign are compared by their exponents first
  have hparts : s = t ∧ (compare e e').then (compare m m') = .eq := by
    cases s with
    | negative =>
      cases t with
      | negative => exact ⟨rfl, Ordering.swap_inj.1 (Option.some.inj h)⟩
      | positive => nomatch h
    | positive =>
      cases t with
      | negative => nomatch h
      | positive => exact ⟨rfl, Option.some.inj h⟩
  obtain ⟨rfl, hcompare⟩ := hparts
  obtain ⟨he, hmantissa⟩ := Ordering.then_eq_eq.1 hcompare
  cases compare_eq_iff_eq.1 he
  cases compare_eq_iff_eq.1 hmantissa
  rfl

/-- Zeros of both signs are equal, and what is not a number is equal to nothing. -/
theorem compare_eq_eq_iff {u v : UnpackedFloat} : u.compare v = some .eq ↔
    (∃ s t, u = .zero s ∧ v = .zero t) ∨ (u = v ∧ u ≠ .notANumber) := by
  constructor
  · intro h
    cases u with
    | notANumber => nomatch h
    | infinity s =>
      cases v with
      | infinity t => exact .inr ⟨congrArg _ ((compare_sign_eq_eq_iff s t).1 (Option.some.inj h)), nofun⟩
      | notANumber => nomatch h
      | zero | finite => cases s <;> nomatch h
    | zero s =>
      cases v with
      | zero t => exact .inl ⟨s, t, rfl, rfl⟩
      | notANumber => nomatch h
      | infinity t | finite t => cases t <;> nomatch h
    | finite s =>
      cases v with
      | finite => exact .inr ⟨eq_of_compare_finite h, nofun⟩
      | notANumber => nomatch h
      | infinity t => cases t <;> nomatch h
      | zero => cases s <;> nomatch h
  · rintro (⟨s, t, rfl, rfl⟩ | ⟨rfl, hu⟩)
    · rfl
    · exact compare_self hu

theorem beq_iff {x y : Float} : x == y ↔ x.toModel.unpack.compare y.toModel.unpack = some .eq := by
  show (x.toModel.unpack.compare y.toModel.unpack == some .eq) = true ↔ _
  exact beq_iff_eq

theorem beq_symm {x y : Float} (h : x == y) : y == x := by
  rw [beq_iff, compare_eq_eq_iff] at h ⊢
  rcases h with ⟨s, t, hx, hy⟩ | ⟨heq, hx⟩
  · exact .inl ⟨t, s, hy, hx⟩
  · exact .inr ⟨heq.symm, heq ▸ hx⟩

theorem beq_trans {x y z : Float} (hxy : x == y) (hyz : y == z) : x == z := by
  rw [beq_iff, compare_eq_eq_iff] at hxy hyz ⊢
  rcases hxy with ⟨s, t, hx, hy⟩ | ⟨hxy, -⟩
  · rcases hyz with ⟨-, t', -, hz⟩ | ⟨hyz, -⟩
    · exact .inl ⟨s, t', hx, hz⟩
    · exact .inl ⟨s, t, hx, hyz ▸ hy⟩
  · rw [hxy]
    exact hyz

end Number

/-! ### Answers -/

section
variable {α : Type} {f g : α → Option Bool} {l : List α}

theorem allOf_cons {x : α} : allOf f (x :: l) = (f x).bind fun b => if b then allOf f l else some false := by
  rw [allOf]
  rcases f x with _ | _ | _ <;> rfl

theorem allOf_eq_true_iff : allOf f l = some true ↔ ∀ x ∈ l, f x = some true := by
  induction l with
  | nil => simp [allOf]
  | cons x l ih =>
    rw [allOf_cons, List.forall_mem_cons, ← ih]
    rcases f x with _ | _ | _ <;> simp

theorem allOf_isSome (h : ∀ x ∈ l, (f x).isSome) : (allOf f l).isSome := by
  induction l with
  | nil => rfl
  | cons x l ih =>
    obtain ⟨hx, hl⟩ := List.forall_mem_cons.1 h
    obtain ⟨b, hb⟩ := Option.isSome_iff_exists.1 hx
    rw [allOf_cons, hb]
    cases b with
    | true => exact ih hl
    | false => rfl

theorem exists_of_allOf_eq_none (h : allOf f l = none) : ∃ x ∈ l, f x = none := by
  by_contra hsome
  push Not at hsome
  have hisome := allOf_isSome fun x hx => Option.isSome_iff_ne_none.2 (hsome x hx)
  rw [h] at hisome
  cases hisome

theorem allOf_mono (h : ∀ x v, f x = some v → g x = some v) {v : Bool} (hv : allOf f l = some v) :
    allOf g l = some v := by
  induction l with
  | nil => exact hv
  | cons x l ih =>
    rw [allOf_cons] at hv ⊢
    obtain ⟨b, hb, hv⟩ := Option.bind_eq_some_iff.1 hv
    rw [h x b hb, Option.bind_some]
    cases b with
    | true => exact ih hv
    | false => exact hv

/-- Where only the second tests settle it, the second one settles one that the first does not. -/
theorem exists_of_allOf_late (h : ∀ x v, f x = some v → g x = some v) (hf : allOf f l = none)
    (hg : (allOf g l).isSome) : ∃ x ∈ l, f x = none ∧ (g x).isSome := by
  induction l with
  | nil => cases hf
  | cons x l ih =>
    rw [allOf_cons] at hf hg
    cases hx : f x with
    | none =>
      refine ⟨x, .head _, hx, ?_⟩
      cases hy : g x with
      | none => rw [hy] at hg; cases hg
      | some b => rfl
    | some b =>
      rw [hx] at hf
      rw [h x b hx] at hg
      cases b with
      | true =>
        obtain ⟨y, hy, hlate⟩ := ih hf hg
        exact ⟨y, .tail _ hy, hlate⟩
      | false => cases hf

end

/-! ### Storage -/

namespace Store
variable {α : Type} {s : Store α} {r r' : α → α → Prop} {p q u : Nat} {f g f' g' : α → α → Option Bool}

/-- The same array, or arrays of the same length with elements that match. -/
def ArraysMatch (s : Store α) (r : α → α → Prop) (p q : Nat) : Prop :=
  p = q ∨ List.Forall₂ r (s.array p).toList (s.array q).toList

/-- The same map, or maps with the same keys and values that match. -/
def MapsMatch (s : Store α) (r : α → α → Prop) (p q : Nat) : Prop :=
  p = q ∨ (s.map p).Matches r (s.map q)

theorem arraysEqual_iff :
    s.arraysEqual f p q = some true ↔ s.ArraysMatch (fun x y => f x y = some true) p q := by
  unfold arraysEqual ArraysMatch
  split
  case isTrue heq => exact iff_of_true rfl (.inl heq)
  case isFalse hne =>
    rw [or_iff_right hne, List.forall₂_iff_zip]
    split
    case isTrue hsize =>
      rw [allOf_eq_true_iff, Prod.forall]
      simp only [Array.length_toList, hsize, true_and]
    case isFalse hsize =>
      refine iff_of_false nofun fun h => hsize ?_
      simpa only [Array.length_toList] using h.1

theorem mapsEqual_iff :
    s.mapsEqual f p q = some true ↔ s.MapsMatch (fun x y => f x y = some true) p q := by
  unfold mapsEqual MapsMatch
  split
  case isTrue heq => exact iff_of_true rfl (.inl heq)
  case isFalse hne =>
    rw [or_iff_right hne, Pairs.Matches]
    split
    case isTrue hsize =>
      rw [allOf_eq_true_iff, Prod.forall, and_iff_right hsize]
      refine forall₃_congr fun k x _ => ?_
      dsimp only
      cases (s.map q).get? k <;> simp
    case isFalse hsize => exact iff_of_false nofun fun h => hsize h.1

theorem ArraysMatch.symm (hr : ∀ x y, r x y → r y x) (h : s.ArraysMatch r p q) : s.ArraysMatch r q p := by
  rcases h with rfl | h
  · exact .inl rfl
  · exact .inr (h.flip.imp fun x y => hr y x)

theorem forall₂_trans {l l' l'' : List α} (hr : ∀ x y z, r x y → r y z → r x z) (h : List.Forall₂ r l l')
    (h' : List.Forall₂ r l' l'') : List.Forall₂ r l l'' := by
  induction h generalizing l'' with
  | nil => exact h'
  | cons hxy _ ih =>
    cases h' with
    | cons hyz h' => exact .cons (hr _ _ _ hxy hyz) (ih h')

theorem ArraysMatch.trans (hr : ∀ x y z, r x y → r y z → r x z) (h : s.ArraysMatch r p q)
    (h' : s.ArraysMatch r q u) : s.ArraysMatch r p u := by
  rcases h with rfl | h
  · exact h'
  · rcases h' with rfl | h'
    · exact .inr h
    · exact .inr (forall₂_trans hr h h')

/-- All maps in storage are made by inserting and removing. -/
def Built (s : Store α) : Prop :=
  ∀ r, (s.map r).Built

theorem built_of_forall (h : ∀ p ∈ s.maps.toList, p.Built) : s.Built := by
  intro r
  unfold map
  cases hp : s.maps[r]? with
  | none => exact .empty
  | some p => exact h p (Array.mem_of_getElem? hp).val

/-- In all maps in storage the keys in order are those of the table. -/
def Sound (s : Store α) : Prop :=
  ∀ r, (s.map r).Sound

theorem Built.sound (h : s.Built) : s.Sound :=
  fun r => (h r).sound

theorem MapsMatch.symm (hs : s.Sound) (hr : ∀ x y, r x y → r y x) (h : s.MapsMatch r p q) :
    s.MapsMatch r q p := by
  rcases h with rfl | h
  · exact .inl rfl
  · exact .inr (h.symm (hs p) (hs q) hr)

theorem MapsMatch.trans (hs : s.Sound) (hr : ∀ x y z, r x y → r y z → r x z) (h : s.MapsMatch r p q)
    (h' : s.MapsMatch r q u) : s.MapsMatch r p u := by
  rcases h with rfl | h
  · exact h'
  · rcases h' with rfl | h'
    · exact .inr h
    · exact .inr (h.trans (hs q) hr h')

/-- The elements of two arrays in the same places. -/
def elemPairs (s : Store α) (p q : Nat) : List (α × α) :=
  (s.array p).toList.zip (s.array q).toList

/-- Unless two arrays are the same or of different lengths, their elements are compared. -/
theorem arraysEqual_cases (s : Store α) (p q : Nat) : (∃ v, ∀ f, s.arraysEqual f p q = some v) ∨
    ∀ f, s.arraysEqual f p q = allOf (fun pair => f pair.1 pair.2) (s.elemPairs p q) := by
  unfold arraysEqual
  by_cases heq : p = q
  · exact .inl ⟨true, fun f => if_pos heq⟩
  · by_cases hsize : (s.array p).size = (s.array q).size
    · exact .inr fun f => by rw [if_neg heq, if_pos hsize, elemPairs]
    · exact .inl ⟨false, fun f => by rw [if_neg heq, if_neg hsize]⟩

/-- What a field of one map is compared with in another one. -/
def fieldsMeet (s : Store α) (f : α → α → Option Bool) (q : Nat) (field : String × α) : Option Bool :=
  ((s.map q).get? field.1).elim (some false) (f field.2)

/-- Unless two maps are the same or of different sizes, their fields are compared. -/
theorem mapsEqual_cases (s : Store α) (p q : Nat) : (∃ v, ∀ f, s.mapsEqual f p q = some v) ∨
    ∀ f, s.mapsEqual f p q = allOf (s.fieldsMeet f q) (s.map p).toList := by
  unfold mapsEqual
  by_cases heq : p = q
  · exact .inl ⟨true, fun f => if_pos heq⟩
  · by_cases hsize : (s.map p).size = (s.map q).size
    · exact .inr fun f => by rw [if_neg heq, if_pos hsize]; rfl
    · exact .inl ⟨false, fun f => by rw [if_neg heq, if_neg hsize]⟩

/-- A field meets another one, or there is none and nothing to compare. -/
theorem fieldsMeet_cases (s : Store α) (q : Nat) (field : String × α) :
    (∀ f, s.fieldsMeet f q field = some false) ∨
      ∃ y, (s.map q).get? field.1 = some y ∧ ∀ f, s.fieldsMeet f q field = f field.2 y := by
  unfold fieldsMeet
  cases (s.map q).get? field.1 with
  | none => exact .inl fun f => rfl
  | some y => exact .inr ⟨y, rfl, fun f => rfl⟩

theorem arraysEqual_isSome (h : ∀ x ∈ (s.array p).toList, ∀ y ∈ (s.array q).toList, (f x y).isSome) :
    (s.arraysEqual f p q).isSome := by
  rcases s.arraysEqual_cases p q with ⟨v, hv⟩ | hall
  · rw [hv]
    rfl
  · rw [hall]
    exact allOf_isSome fun x hx => h _ (List.of_mem_zip hx).1 _ (List.of_mem_zip hx).2

theorem mapsEqual_isSome
    (h : ∀ k x y, (s.map p).get? k = some x → (s.map q).get? k = some y → (f x y).isSome) :
    (s.mapsEqual f p q).isSome := by
  rcases s.mapsEqual_cases p q with ⟨v, hv⟩ | hall
  · rw [hv]
    rfl
  · rw [hall]
    refine allOf_isSome fun x hx => ?_
    rcases s.fieldsMeet_cases q x with hnone | ⟨y, hy, hmeet⟩
    · rw [hnone]
      rfl
    · rw [hmeet]
      exact h x.1 x.2 y (Pairs.get?_of_mem_toList hx) hy

/-! #### Pairs of arrays or maps -/

/-- Compares two arrays or two maps. -/
def refsEqual (s : Store α) (elems fields : α → α → Option Bool) : (Nat × Nat) ⊕ (Nat × Nat) → Option Bool
  | .inl (p, q) => s.arraysEqual elems p q
  | .inr (p, q) => s.mapsEqual fields p q

/-- The pairs of arrays and the pairs of maps in storage. -/
def refPairs (s : Store α) : Finset ((Nat × Nat) ⊕ (Nat × Nat)) :=
  (Finset.range s.arrays.size ×ˢ Finset.range s.arrays.size).disjSum
    (Finset.range s.maps.size ×ˢ Finset.range s.maps.size)

theorem card_refPairs_lt (s : Store α) : s.refPairs.card < (s.size + 1) * (s.size + 1) := by
  rw [refPairs, Finset.card_disjSum, Finset.card_product, Finset.card_product, Finset.card_range,
    Finset.card_range, size]
  have hmono : s.arrays.size * s.arrays.size + s.maps.size * s.maps.size ≤
      (s.arrays.size + s.maps.size) * (s.arrays.size + s.maps.size) := by
    rw [Nat.add_mul, Nat.mul_add, Nat.mul_add]
    omega
  exact Nat.lt_of_le_of_lt hmono (Nat.mul_lt_mul'' (Nat.lt_succ_self _) (Nat.lt_succ_self _))

section
variable {t : (Nat × Nat) ⊕ (Nat × Nat)} {v : Bool} (hf : ∀ x y v, f x y = some v → f' x y = some v)
  (hg : ∀ x y v, g x y = some v → g' x y = some v)

/-- What is not settled is in storage: only then are there parts to compare. -/
theorem mem_refPairs (h : s.refsEqual f g t = none) : t ∈ s.refPairs := by
  rcases t with ⟨p, q⟩ | ⟨p, q⟩
  · rcases s.arraysEqual_cases p q with ⟨v, hv⟩ | hall
    · cases (hv f).symm.trans h
    · obtain ⟨x, hx, -⟩ := exists_of_allOf_eq_none ((hall f).symm.trans h)
      obtain ⟨hp, hq⟩ := List.of_mem_zip hx
      exact Finset.inl_mem_disjSum.2 (Finset.mem_product.2
        ⟨Finset.mem_range.2 (lt_of_mem_array hp), Finset.mem_range.2 (lt_of_mem_array hq)⟩)
  · rcases s.mapsEqual_cases p q with ⟨v, hv⟩ | hall
    · cases (hv g).symm.trans h
    · obtain ⟨x, hx, hnone⟩ := exists_of_allOf_eq_none ((hall g).symm.trans h)
      rcases s.fieldsMeet_cases q x with hfalse | ⟨y, hy, -⟩
      · cases (hfalse g).symm.trans hnone
      · exact Finset.inr_mem_disjSum.2 (Finset.mem_product.2
          ⟨Finset.mem_range.2 (lt_of_get?_map (Pairs.get?_of_mem_toList hx)),
            Finset.mem_range.2 (lt_of_get?_map hy)⟩)

include hg in
theorem fieldsMeet_mono {x : String × α} (h : s.fieldsMeet g q x = some v) : s.fieldsMeet g' q x = some v := by
  rcases s.fieldsMeet_cases q x with hfalse | ⟨y, -, hmeet⟩
  · rw [hfalse] at h ⊢
    exact h
  · rw [hmeet] at h ⊢
    exact hg _ _ v h

include hf hg

theorem refsEqual_mono (h : s.refsEqual f g t = some v) : s.refsEqual f' g' t = some v := by
  rcases t with ⟨p, q⟩ | ⟨p, q⟩
  · rw [refsEqual] at h ⊢
    rcases s.arraysEqual_cases p q with ⟨w, hw⟩ | hall
    · rw [hw] at h ⊢
      exact h
    · rw [hall] at h ⊢
      exact allOf_mono (fun x v => hf x.1 x.2 v) h
  · rw [refsEqual] at h ⊢
    rcases s.mapsEqual_cases p q with ⟨w, hw⟩ | hall
    · rw [hw] at h ⊢
      exact h
    · rw [hall] at h ⊢
      exact allOf_mono (fun x v => fieldsMeet_mono hg) h

/-- Where other comparisons of the parts settle it, they settle parts that were not. -/
theorem exists_of_refsEqual_late (h : s.refsEqual f g t = none) (h' : (s.refsEqual f' g' t).isSome) :
    (∃ x y, f x y = none ∧ (f' x y).isSome) ∨ ∃ x y, g x y = none ∧ (g' x y).isSome := by
  rcases t with ⟨p, q⟩ | ⟨p, q⟩
  · rw [refsEqual] at h h'
    rcases s.arraysEqual_cases p q with ⟨w, hw⟩ | hall
    · cases (hw f).symm.trans h
    · rw [hall] at h h'
      obtain ⟨x, -, hx⟩ := exists_of_allOf_late (fun x v => hf x.1 x.2 v) h h'
      exact .inl ⟨_, _, hx⟩
  · rw [refsEqual] at h h'
    rcases s.mapsEqual_cases p q with ⟨w, hw⟩ | hall
    · cases (hw g).symm.trans h
    · rw [hall] at h h'
      obtain ⟨x, -, hx, hx'⟩ := exists_of_allOf_late (fun x v => fieldsMeet_mono hg) h h'
      rcases s.fieldsMeet_cases q x with hfalse | ⟨y, -, hmeet⟩
      · cases (hfalse g).symm.trans hx
      · rw [hmeet] at hx hx'
        exact .inr ⟨_, _, hx, hx'⟩

end

/-- The equality of two values is settled, or it is that of two arrays or maps whose elements are compared
with less fuel, and whose fields are, maybe the other way round. -/
structure Comparing (s : Store α) (eq : Nat → α → α → Option Bool) (fields : Nat → α → α → Option Bool) :
    Prop where
  zero : ∀ x y, eq 0 x y = none
  succ : ∀ x y, (∃ v, ∀ n, eq (n + 1) x y = some v) ∨ ∃ t, ∀ n, eq (n + 1) x y = s.refsEqual (eq n) (fields n) t
  fields : ∀ x y, ∃ x' y', ∀ n, fields n x y = eq n x' y'

theorem Comparing.leveled {eq fields : Nat → α → α → Option Bool} (h : s.Comparing eq fields) :
    Leveled (fun n (x : α × α) => eq n x.1 x.2) (fun n => s.refsEqual (eq n) (fields n)) s.refPairs := by
  have helems {n : Nat} (hn : ∀ (x : α × α) v, eq n x.1 x.2 = some v → eq (n + 1) x.1 x.2 = some v) (x y : α)
      (v : Bool) : eq n x y = some v → eq (n + 1) x y = some v := hn (x, y) v
  have hfields {n : Nat} (hn : ∀ (x : α × α) v, eq n x.1 x.2 = some v → eq (n + 1) x.1 x.2 = some v) (x y : α)
      (v : Bool) (hv : fields n x y = some v) : fields (n + 1) x y = some v := by
    obtain ⟨x', y', hturned⟩ := h.fields x y
    rw [hturned] at hv ⊢
    exact hn (x', y') v hv
  refine ⟨fun x => h.zero x.1 x.2, fun x => h.succ x.1 x.2, fun n hn t v hv => ?_, fun n hn t ht ht' => ?_,
    fun n t ht => mem_refPairs ht⟩
  · exact refsEqual_mono (helems hn) (hfields hn) hv
  · rcases exists_of_refsEqual_late (helems hn) (hfields hn) ht ht' with ⟨x, y, hxy⟩ | ⟨x, y, hxy⟩
    · exact ⟨(x, y), hxy⟩
    · obtain ⟨x', y', hturned⟩ := h.fields x y
      rw [hturned, hturned] at hxy
      exact ⟨(x', y'), hxy⟩

/-- A comparison that has an answer with any fuel has it with that for all pairs in storage. -/
theorem Comparing.eq_some_iff {eq fields : Nat → α → α → Option Bool} (h : s.Comparing eq fields) {x y : α}
    {v : Bool} : eq ((s.size + 1) * (s.size + 1)) x y = some v ↔ ∃ fuel, eq fuel x y = some v := by
  refine ⟨fun heq => ⟨_, heq⟩, fun ⟨fuel, hfuel⟩ => ?_⟩
  exact h.leveled.eq_some_of_exists (i := (x, y)) s.card_refPairs_lt hfuel

end Store

/-! ### Values with types -/

namespace Value
variable {s : Store Value} {r : Value → Value → Prop} {parts : Value → Value → Option Bool}
  {a b c x : Value} {f n : Nat}

/-- One level of a comparison, with the parts compared by `r`. -/
inductive Alike (s : Store Value) (r : Value → Value → Prop) : Value → Value → Prop where
  | num {x y : Float} (h : x == y) : Alike s r (.num x) (.num y)
  | str (t : String) : Alike s r (.str t) (.str t)
  | bool (t : Bool) : Alike s r (.bool t) (.bool t)
  | any {x y : Value} (hty : x.typeOf.same y.typeOf) (h : Alike s r x y) : Alike s r (.any x) (.any y)
  | array {p q : Nat} (t u : Ty) (h : s.ArraysMatch r p q) : Alike s r (.array p t) (.array q u)
  | map {p q : Nat} (t u : Ty) (h : s.MapsMatch r p q) : Alike s r (.map p t) (.map q u)

theorem equalsBy_any : (Value.any a).equalsBy s parts (.any b) = some true ↔
    a.typeOf.same b.typeOf ∧ a.equalsBy s parts b = some true := by
  rw [equalsBy]
  split
  case isTrue hty => rw [and_iff_right hty]
  case isFalse hty => exact iff_of_false nofun fun h => hty h.1

theorem equalsBy_iff : a.equalsBy s parts b = some true ↔ Alike s (fun x y => parts x y = some true) a b := by
  constructor
  · intro h
    induction a generalizing b with
    | num x =>
      cases b with
      | num y => exact .num (Option.some.inj h)
      | _ => cases h
    | str x =>
      cases b with
      | str y => exact eq_of_beq (Option.some.inj h) ▸ .str x
      | _ => cases h
    | bool x =>
      cases b with
      | bool y => exact eq_of_beq (Option.some.inj h) ▸ .bool x
      | _ => cases h
    | any x ih =>
      cases b with
      | any y =>
        obtain ⟨hty, h⟩ := equalsBy_any.1 h
        exact .any hty (ih h)
      | _ => cases h
    | array p t =>
      cases b with
      | array q u => exact .array t u (Store.arraysEqual_iff.1 h)
      | _ => cases h
    | map p t =>
      cases b with
      | map q u => exact .map t u (Store.mapsEqual_iff.1 h)
      | _ => cases h
    | none => cases b <;> cases h
  · intro h
    induction h with
    | num h => exact congrArg some h
    | str t => exact congrArg some (beq_self_eq_true t)
    | bool t => exact congrArg some (beq_self_eq_true t)
    | any hty _ ih => exact equalsBy_any.2 ⟨hty, ih⟩
    | array t u h => exact Store.arraysEqual_iff.2 h
    | map t u h => exact Store.mapsEqual_iff.2 h

theorem equalsWithin_succ_iff : a.equalsWithin s (f + 1) b = some true ↔
    Alike s (fun x y => x.equalsWithin s f y = some true) a b :=
  equalsBy_iff

theorem Alike.symm (hs : s.Sound) (hr : ∀ x y, r x y → r y x) (h : Alike s r a b) : Alike s r b a := by
  induction h with
  | num h => exact .num (Number.beq_symm h)
  | str t => exact .str t
  | bool t => exact .bool t
  | any hty _ ih => exact .any (Ty.same_symm hty) ih
  | array t u h => exact .array u t (h.symm hr)
  | map t u h => exact .map u t (h.symm hs hr)

theorem Alike.trans (hs : s.Sound) (hr : ∀ x y z, r x y → r y z → r x z) (h : Alike s r a b)
    (h' : Alike s r b c) : Alike s r a c := by
  induction h generalizing c with
  | num h =>
    cases h' with
    | num h' => exact .num (Number.beq_trans h h')
  | str t => exact h'
  | bool t => exact h'
  | any hty _ ih =>
    cases h' with
    | any hty' h' => exact .any (Ty.same_trans hty hty') (ih h')
  | array t _ h =>
    cases h' with
    | array _ u h' => exact .array t u (h.trans hr h')
  | map t _ h =>
    cases h' with
    | map _ u h' => exact .map t u (h.trans hs hr h')

theorem equalsWithin_symm (hs : s.Sound) (h : a.equalsWithin s f b = some true) :
    b.equalsWithin s f a = some true := by
  induction f generalizing a b with
  | zero => cases h
  | succ f ih =>
    have hlevel := equalsWithin_succ_iff.1 h
    exact equalsWithin_succ_iff.2 (hlevel.symm hs fun x y => ih)

theorem equalsWithin_trans (hs : s.Sound) (h : a.equalsWithin s f b = some true)
    (h' : b.equalsWithin s f c = some true) : a.equalsWithin s f c = some true := by
  induction f generalizing a b c with
  | zero => cases h
  | succ f ih =>
    have hlevel := equalsWithin_succ_iff.1 h
    have hlevel' := equalsWithin_succ_iff.1 h'
    exact equalsWithin_succ_iff.2 (hlevel.trans hs (fun x y z => ih) hlevel')

/-! #### Fuel -/

theorem equalsBy_cases (s : Store Value) (a b : Value) : (∃ v, ∀ parts, a.equalsBy s parts b = some v) ∨
    ∃ t, ∀ parts, a.equalsBy s parts b = s.refsEqual parts parts t := by
  induction a generalizing b with
  | any x ih =>
    cases b with
    | any y =>
      simp only [equalsBy]
      split
      · exact ih y
      · exact .inl ⟨false, fun _ => rfl⟩
    | _ => exact .inl ⟨false, fun _ => rfl⟩
  | array p t =>
    cases b with
    | array q u => exact .inr ⟨.inl (p, q), fun _ => rfl⟩
    | _ => exact .inl ⟨false, fun _ => rfl⟩
  | map p t =>
    cases b with
    | map q u => exact .inr ⟨.inr (p, q), fun _ => rfl⟩
    | _ => exact .inl ⟨false, fun _ => rfl⟩
  | _ => cases b <;> exact .inl ⟨_, fun _ => rfl⟩

theorem comparing (s : Store Value) : s.Comparing (equalsWithin s) (equalsWithin s) where
  zero _ _ := rfl
  succ a b := by
    rcases equalsBy_cases s a b with ⟨v, hv⟩ | ⟨t, ht⟩
    · exact .inl ⟨v, fun n => hv _⟩
    · exact .inr ⟨t, fun n => ht _⟩
  fields x y := ⟨x, y, fun _ => rfl⟩

theorem equals_eq_some_iff {v : Bool} : a.equals s b = some v ↔ ∃ fuel, a.equalsWithin s fuel b = some v :=
  (comparing s).eq_some_iff

theorem equalsBy_isSome (h : ∀ x, Inside s a x → ∀ y, (parts x y).isSome ∧ (parts y x).isSome) (b : Value) :
    (a.equalsBy s parts b).isSome ∧ (b.equalsBy s parts a).isSome := by
  induction a generalizing b with
  | any x ih =>
    cases b with
    | any y =>
      have href : x.ref? = (Value.any x).ref? := rfl
      have hx := ih (fun z hz => h z (hz.of_ref? href)) y
      simp only [equalsBy]
      constructor
      · split
        · exact hx.1
        · rfl
      · split
        · exact hx.2
        · rfl
    | _ => exact ⟨rfl, rfl⟩
  | array p t =>
    cases b with
    | array q u =>
      exact ⟨Store.arraysEqual_isSome fun x hx y _ => (h x (.elem rfl hx) y).1,
        Store.arraysEqual_isSome fun y _ x hx => (h x (.elem rfl hx) y).2⟩
    | _ => exact ⟨rfl, rfl⟩
  | map p t =>
    cases b with
    | map q u =>
      exact ⟨Store.mapsEqual_isSome fun k x y hx _ => (h x (.field rfl hx) y).1,
        Store.mapsEqual_isSome fun k y x _ hx => (h x (.field rfl hx) y).2⟩
    | _ => exact ⟨rfl, rfl⟩
  | _ => cases b <;> exact ⟨rfl, rfl⟩

theorem equalsWithin_isSome (h : Height (Inside s) n a) (b : Value) :
    (a.equalsWithin s n b).isSome ∧ (b.equalsWithin s n a).isSome := by
  induction h generalizing b with
  | intro _ ih => exact equalsBy_isSome (fun x hx => ih x hx) b

/-- A comparison of a value without cycles with any other one has an answer, on whichever side it is. -/
theorem equals_isSome (h : a.Acyclic s) (b : Value) : (a.equals s b).isSome ∧ (b.equals s a).isSome := by
  obtain ⟨hleft, hright⟩ := equalsWithin_isSome (height_inside h) b
  obtain ⟨v, hv⟩ := Option.isSome_iff_exists.1 hleft
  obtain ⟨w, hw⟩ := Option.isSome_iff_exists.1 hright
  rw [equals_eq_some_iff.2 ⟨_, hv⟩, equals_eq_some_iff.2 ⟨_, hw⟩]
  exact ⟨rfl, rfl⟩

end Value

/-! ### Values of the machine -/

namespace Bytecode.Cell
variable {s : Store Cell} {r : Cell → Cell → Prop} {parts : Cell → Cell → Option Bool} {a b c v w x : Cell}
  {f n : Nat}

/-- One level of a comparison, with the parts compared by `r`. -/
inductive Alike (s : Store Cell) (r : Cell → Cell → Prop) : Cell → Cell → Prop where
  | num {x y : Float} (h : x == y) : Alike s r (.num x) (.num y)
  | bool (t : Bool) : Alike s r (.bool t) (.bool t)
  | str (t : String) : Alike s r (.str t) (.str t)
  | array {p q : Nat} (h : s.ArraysMatch r p q) : Alike s r (.array p) (.array q)
  | map {p q : Nat} (h : s.MapsMatch (fun x y => r y x) p q) : Alike s r (.map p) (.map q)
  | none : Alike s r .none .none

/-- A value lies directly inside another one. -/
inductive Contains (s : Store Cell) : Cell → Cell → Prop where
  | elem {p : Nat} {x : Cell} (hx : x ∈ (s.array p).toList) : Contains s (.array p) x
  | field {p : Nat} {k : String} {x : Cell} (hx : (s.map p).get? k = some x) : Contains s (.map p) x

/-- Nothing in a value contains itself. -/
def Acyclic (s : Store Cell) (v : Cell) : Prop :=
  ∀ w, ReflTransGen (Contains s) v w → ¬ TransGen (Contains s) w w

theorem equalsBy_iff : a.equalsBy s parts b = some true ↔ Alike s (fun x y => parts x y = some true) a b := by
  constructor
  · intro h
    cases a with
    | num x =>
      cases b with
      | num y => exact .num (Option.some.inj h)
      | _ => cases h
    | bool x =>
      cases b with
      | bool y => exact eq_of_beq (Option.some.inj h) ▸ .bool x
      | _ => cases h
    | str x =>
      cases b with
      | str y => exact eq_of_beq (Option.some.inj h) ▸ .str x
      | _ => cases h
    | array p =>
      cases b with
      | array q => exact .array (Store.arraysEqual_iff.1 h)
      | _ => cases h
    | map p =>
      cases b with
      | map q => exact .map (Store.mapsEqual_iff.1 h)
      | _ => cases h
    | none =>
      cases b with
      | none => exact .none
      | _ => cases h
    | range => cases b <;> cases h
  · intro h
    cases h with
    | num h => exact congrArg some h
    | bool t => exact congrArg some (beq_self_eq_true t)
    | str t => exact congrArg some (beq_self_eq_true t)
    | array h => exact Store.arraysEqual_iff.2 h
    | map h => exact Store.mapsEqual_iff.2 h
    | none => rfl

theorem equalsWithin_succ_iff : a.equalsWithin s (f + 1) b = some true ↔
    Alike s (fun x y => x.equalsWithin s f y = some true) a b :=
  equalsBy_iff

theorem Alike.symm (hs : s.Sound) (hr : ∀ x y, r x y → r y x) (h : Alike s r a b) : Alike s r b a := by
  cases h with
  | num h => exact .num (Number.beq_symm h)
  | bool t => exact .bool t
  | str t => exact .str t
  | array h => exact .array (h.symm hr)
  | map h => exact .map (h.symm hs fun x y => hr y x)
  | none => exact .none

theorem Alike.trans (hs : s.Sound) (hr : ∀ x y z, r x y → r y z → r x z) (h : Alike s r a b)
    (h' : Alike s r b c) : Alike s r a c := by
  cases h with
  | num h =>
    cases h' with
    | num h' => exact .num (Number.beq_trans h h')
  | bool | str | none => exact h'
  | array h =>
    cases h' with
    | array h' => exact .array (h.trans hr h')
  | map h =>
    cases h' with
    | map h' => exact .map (h.trans hs (fun x y z hyx hzy => hr z y x hzy hyx) h')

theorem equalsWithin_symm (hs : s.Sound) (h : a.equalsWithin s f b = some true) :
    b.equalsWithin s f a = some true := by
  induction f generalizing a b with
  | zero => cases h
  | succ f ih =>
    have hlevel := equalsWithin_succ_iff.1 h
    exact equalsWithin_succ_iff.2 (hlevel.symm hs fun x y => ih)

theorem equalsWithin_trans (hs : s.Sound) (h : a.equalsWithin s f b = some true)
    (h' : b.equalsWithin s f c = some true) : a.equalsWithin s f c = some true := by
  induction f generalizing a b c with
  | zero => cases h
  | succ f ih =>
    have hlevel := equalsWithin_succ_iff.1 h
    have hlevel' := equalsWithin_succ_iff.1 h'
    exact equalsWithin_succ_iff.2 (hlevel.trans hs (fun x y z => ih) hlevel')

/-! #### Fuel -/

/-- The storage of an array or a map. -/
def ref? : Cell → Option (Nat ⊕ Nat)
  | .array p => some (.inl p)
  | .map p => some (.inr p)
  | _ => Option.none

theorem Contains.ref?_mem_refs (h : Contains s v x) : ∃ ref ∈ s.refs, v.ref? = some ref := by
  cases h with
  | elem hx => exact ⟨_, Store.inl_mem_refs hx, rfl⟩
  | field hx => exact ⟨_, Store.inr_mem_refs hx, rfl⟩

theorem Contains.of_ref? (href : v.ref? = w.ref?) (h : Contains s v x) : Contains s w x := by
  cases h with
  | elem hx =>
    cases w <;> simp only [ref?, Option.some.injEq, reduceCtorEq, Sum.inl.injEq] at href
    exact href ▸ .elem hx
  | field hx =>
    cases w <;> simp only [ref?, Option.some.injEq, reduceCtorEq, Sum.inr.injEq] at href
    exact href ▸ .field hx

theorem height_contains (h : v.Acyclic s) : Height (Contains s) (s.size + 1) v := by
  have hcard : (s.refs.map .some).card = s.size := by
    rw [Finset.card_map, Store.card_refs]
  rw [← hcard]
  refine height_of_acyclic ref? (fun href hx => hx.of_ref? href) h fun w x _ hx => ?_
  obtain ⟨ref, hmem, hw⟩ := hx.ref?_mem_refs
  exact Finset.mem_map.2 ⟨ref, hmem, hw.symm⟩

theorem equalsBy_cases (s : Store Cell) (a b : Cell) : (∃ v, ∀ parts, a.equalsBy s parts b = some v) ∨
    ∃ t, ∀ parts, a.equalsBy s parts b = s.refsEqual parts (fun x y => parts y x) t := by
  cases a with
  | array p =>
    cases b with
    | array q => exact .inr ⟨.inl (p, q), fun _ => rfl⟩
    | _ => exact .inl ⟨false, fun _ => rfl⟩
  | map p =>
    cases b with
    | map q => exact .inr ⟨.inr (p, q), fun _ => rfl⟩
    | _ => exact .inl ⟨false, fun _ => rfl⟩
  | _ => cases b <;> exact .inl ⟨_, fun _ => rfl⟩

theorem comparing (s : Store Cell) : s.Comparing (equalsWithin s) fun n x y => equalsWithin s n y x where
  zero _ _ := rfl
  succ a b := by
    rcases equalsBy_cases s a b with ⟨v, hv⟩ | ⟨t, ht⟩
    · exact .inl ⟨v, fun n => hv _⟩
    · exact .inr ⟨t, fun n => ht _⟩
  fields x y := ⟨y, x, fun _ => rfl⟩

theorem equals_eq_some_iff {v : Bool} : a.equals s b = some v ↔ ∃ fuel, a.equalsWithin s fuel b = some v :=
  (comparing s).eq_some_iff

theorem equalsBy_isSome (h : ∀ x, Contains s a x → ∀ y, (parts x y).isSome ∧ (parts y x).isSome) (b : Cell) :
    (a.equalsBy s parts b).isSome ∧ (b.equalsBy s parts a).isSome := by
  cases a with
  | array p =>
    cases b with
    | array q =>
      exact ⟨Store.arraysEqual_isSome fun x hx y _ => (h x (.elem hx) y).1,
        Store.arraysEqual_isSome fun y _ x hx => (h x (.elem hx) y).2⟩
    | _ => exact ⟨rfl, rfl⟩
  | map p =>
    cases b with
    | map q =>
      exact ⟨Store.mapsEqual_isSome fun k x y hx _ => (h x (.field hx) y).2,
        Store.mapsEqual_isSome fun k y x _ hx => (h x (.field hx) y).1⟩
    | _ => exact ⟨rfl, rfl⟩
  | _ => cases b <;> exact ⟨rfl, rfl⟩

theorem equalsWithin_isSome (h : Height (Contains s) n a) (b : Cell) :
    (a.equalsWithin s n b).isSome ∧ (b.equalsWithin s n a).isSome := by
  induction h generalizing b with
  | intro _ ih => exact equalsBy_isSome (fun x hx => ih x hx) b

/-- A comparison of a value without cycles with any other one has an answer, on whichever side it is. -/
theorem equals_isSome (h : a.Acyclic s) (b : Cell) : (a.equals s b).isSome ∧ (b.equals s a).isSome := by
  obtain ⟨hleft, hright⟩ := equalsWithin_isSome (height_contains h) b
  obtain ⟨v, hv⟩ := Option.isSome_iff_exists.1 hleft
  obtain ⟨w, hw⟩ := Option.isSome_iff_exists.1 hright
  rw [equals_eq_some_iff.2 ⟨_, hv⟩, equals_eq_some_iff.2 ⟨_, hw⟩]
  exact ⟨rfl, rfl⟩

end Bytecode.Cell

/-! ### Both equalities -/

/-- Two answers that are there are the same if they are positive for the same values. -/
theorem eq_of_eq_true_iff {o o' : Option Bool} (ho : o.isSome) (ho' : o'.isSome)
    (h : o = some true ↔ o' = some true) : o = o' := by
  rcases o with _ | _ | _ <;> rcases o' with _ | _ | _ <;> simp_all

/-- Values, with types and without, are equal in both directions, and two that are equal to a third one
are equal. Maps in storage are made by inserting and removing. If the value on the left has no cycles,
then both comparisons have the same answer. The answer of any comparison, and whether there is one, is
that without a limit to its depth. -/
theorem equals_symm_and_trans :
    (∀ s : Store Value, s.Built → ∀ a b c : Value,
      (a.equals s b = some true → b.equals s a = some true) ∧
      (a.equals s b = some true → b.equals s c = some true → a.equals s c = some true) ∧
      (a.Acyclic s → (a.equals s b).isSome ∧ a.equals s b = b.equals s a) ∧
      ∀ v, a.equals s b = some v ↔ ∃ fuel, a.equalsWithin s fuel b = some v) ∧
    ∀ s : Store Cell, s.Built → ∀ a b c : Cell,
      (a.equals s b = some true → b.equals s a = some true) ∧
      (a.equals s b = some true → b.equals s c = some true → a.equals s c = some true) ∧
      (a.Acyclic s → (a.equals s b).isSome ∧ a.equals s b = b.equals s a) ∧
      ∀ v, a.equals s b = some v ↔ ∃ fuel, a.equalsWithin s fuel b = some v := by
  constructor
  · intro s hs a b c
    have hsymm {a b : Value} (h : a.equals s b = some true) : b.equals s a = some true :=
      Value.equalsWithin_symm hs.sound h
    refine ⟨hsymm, Value.equalsWithin_trans hs.sound, fun ha => ?_, fun v => Value.equals_eq_some_iff⟩
    obtain ⟨hleft, hright⟩ := Value.equals_isSome ha b
    exact ⟨hleft, eq_of_eq_true_iff hleft hright ⟨hsymm, hsymm⟩⟩
  · intro s hs a b c
    have hsymm {a b : Cell} (h : a.equals s b = some true) : b.equals s a = some true :=
      Cell.equalsWithin_symm hs.sound h
    refine ⟨hsymm, Cell.equalsWithin_trans hs.sound, fun ha => ?_, fun v => Cell.equals_eq_some_iff⟩
    obtain ⟨hleft, hright⟩ := Cell.equals_isSome ha b
    exact ⟨hleft, eq_of_eq_true_iff hleft hright ⟨hsymm, hsymm⟩⟩

section
variable {α : Type} {elem shared last : α}

/-- A map with two keys. -/
def inOrder (shared last : α) : Pairs α :=
  (Pairs.empty.insert "a" shared).insert "b" last

/-- A map with the same keys in another order. -/
def outOfOrder (shared last : α) : Pairs α :=
  (((Pairs.empty.insert "c" last).insert "b" last).insert "a" shared).erase "c"

theorem eq_of_get?_inOrder {key : String} {x : α} (h : (inOrder shared last).get? key = some x) :
    (key = "a" ∧ x = shared) ∨ (key = "b" ∧ x = last) := by
  rw [inOrder, Pairs.get?_insert, Pairs.get?_insert, Pairs.get?_empty] at h
  split at h
  · next hb => exact .inr ⟨hb, (Option.some.inj h).symm⟩
  · split at h
    · next ha => exact .inl ⟨ha, (Option.some.inj h).symm⟩
    · cases h

theorem inOrder_matches {r : α → α → Prop} (hshared : r shared shared) (hlast : r last last) :
    (inOrder shared last).Matches r (outOfOrder shared last) := by
  have hkeys : (inOrder shared last).keys = ["a", "b"] := by
    simp [inOrder, Pairs.keys_insert, Pairs.contains_insert, Pairs.keys_empty]
  have hkeys' : (outOfOrder shared last).keys = ["b", "a"] := by
    rw [outOfOrder, Pairs.keys_erase_of_contains (by simp [Pairs.contains_insert])]
    simp [Pairs.keys_insert, Pairs.contains_insert, Pairs.keys_empty]
  refine ⟨?_, fun key x hx => ?_⟩
  · exact (congrArg List.length hkeys).trans (congrArg List.length hkeys').symm
  · rw [outOfOrder, Pairs.get?_erase, Pairs.get?_insert, Pairs.get?_insert]
    rcases eq_of_get?_inOrder (Pairs.get?_of_mem_toList hx) with ⟨rfl, rfl⟩ | ⟨rfl, rfl⟩
    · exact ⟨x, rfl, hshared⟩
    · exact ⟨x, rfl, hlast⟩

/-- Two maps that hold one array, with the same keys in different orders. -/
def twoOrders {α : Type} (elem shared last : α) : Store α where
  arrays := #[#[elem]]
  maps := #[inOrder shared last, outOfOrder shared last]

theorem twoOrders_built : (twoOrders elem shared last).Built := by
  refine Store.built_of_forall fun p hp => ?_
  obtain rfl | rfl : p = inOrder shared last ∨ p = outOfOrder shared last := by
    simpa [twoOrders] using hp
  · exact .insert (.insert .empty _ _) _ _
  · exact .erase (.insert (.insert (.insert .empty _ _) _ _) _ _) _

theorem eq_of_get?_twoOrders {key : String} {x : α} (h : ((twoOrders elem shared last).map 0).get? key = some x) :
    x = shared ∨ x = last :=
  (eq_of_get?_inOrder h).imp And.right And.right

end

/-- Two maps with an array of what is not a number. -/
def typedOrders : Store Value :=
  twoOrders (.num (0.0 / 0.0)) (.any (.array 0 (.array .num))) (.any (.bool true))

/-- The same maps for the machine. -/
def untypedOrders : Store Cell :=
  twoOrders (.num (0.0 / 0.0)) (.array 0) (.bool true)

theorem typedOrders_equals (t u : Ty) : (Value.map 0 t).equals typedOrders (.map 1 u) = some true := by
  have hshared (f : Nat) : (Value.any (.array 0 (.array .num))).equalsWithin typedOrders (f + 1)
      (.any (.array 0 (.array .num))) = some true :=
    Value.equalsWithin_succ_iff.2 (.any (Ty.same_refl _) (.array _ _ (.inl rfl)))
  have hlast (f : Nat) :
      (Value.any (.bool true)).equalsWithin typedOrders (f + 1) (.any (.bool true)) = some true :=
    Value.equalsWithin_succ_iff.2 (.any (Ty.same_refl _) (.bool true))
  exact Value.equalsWithin_succ_iff.2 (.map t u (.inr (inOrder_matches (hshared 14) (hlast 14))))

theorem typedOrders_acyclic (t : Ty) : (Value.map 0 t).Acyclic typedOrders := by
  have hlevels : Value.Levels typedOrders 2 (.map 0 t) := by
    refine .map fun key x hx => ?_
    rcases eq_of_get?_twoOrders hx with rfl | rfl
    · refine .any (.array fun x hx => ?_)
      obtain rfl := List.mem_singleton.1 hx
      exact .num _
    · exact .any (.bool true)
  exact Value.acyclic_of_levels hlevels

theorem untypedOrders_equals : (Cell.map 0).equals untypedOrders (.map 1) = some true := by
  have hshared (f : Nat) : (Cell.array 0).equalsWithin untypedOrders (f + 1) (.array 0) = some true :=
    Cell.equalsWithin_succ_iff.2 (.array (.inl rfl))
  have hlast (f : Nat) : (Cell.bool true).equalsWithin untypedOrders (f + 1) (.bool true) = some true :=
    Cell.equalsWithin_succ_iff.2 (.bool true)
  exact Cell.equalsWithin_succ_iff.2 (.map (.inr (inOrder_matches (hshared 14) (hlast 14))))

theorem untypedOrders_acyclic : (Cell.map 0).Acyclic untypedOrders := by
  have hheight : Height (Cell.Contains untypedOrders) 3 (.map 0) := by
    refine .intro fun x hx => .intro fun y hy => .intro fun z hz => ?_
    cases hx with
    | field hx =>
      rcases eq_of_get?_twoOrders hx with rfl | rfl
      · cases hy with
        | elem hy =>
          obtain rfl := List.mem_singleton.1 hy
          cases hz
      · cases hy
  exact fun w hw => hheight.not_transGen hw

/-- Both maps are equal in both directions, without a limit to the depth. -/
theorem orders_equals_symm :
    let t : Ty := .map .any
    ((Value.map 1 t).equals typedOrders (.map 0 t) = some true ∧
      (Value.map 0 t).equals typedOrders (.map 0 t) = some true ∧
      (Value.map 0 t).equals typedOrders (.map 1 t) = (Value.map 1 t).equals typedOrders (.map 0 t) ∧
      ∃ fuel, (Value.map 0 t).equalsWithin typedOrders fuel (.map 1 t) = some true) ∧
      (Cell.map 1).equals untypedOrders (.map 0) = some true ∧
        (Cell.map 0).equals untypedOrders (.map 0) = some true ∧
        (Cell.map 0).equals untypedOrders (.map 1) = (Cell.map 1).equals untypedOrders (.map 0) ∧
        ∃ fuel, (Cell.map 0).equalsWithin untypedOrders fuel (.map 1) = some true := by
  intro t
  obtain ⟨hsymm, htrans, hsame, hbound⟩ :=
    equals_symm_and_trans.1 typedOrders twoOrders_built (.map 0 t) (.map 1 t) (.map 0 t)
  obtain ⟨hsymm', htrans', hsame', hbound'⟩ :=
    equals_symm_and_trans.2 untypedOrders twoOrders_built (.map 0) (.map 1) (.map 0)
  have heq := typedOrders_equals t t
  have heq' := untypedOrders_equals
  exact ⟨⟨hsymm heq, htrans heq (hsymm heq), (hsame (typedOrders_acyclic t)).2, (hbound true).1 heq⟩,
    hsymm' heq', htrans' heq' (hsymm' heq'), (hsame' untypedOrders_acyclic).2, (hbound' true).1 heq'⟩

end TinyScript
