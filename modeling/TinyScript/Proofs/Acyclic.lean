import TinyScript.Proofs.Pairs
import TinyScript.Value
import Mathlib.Data.Finset.Card
import Mathlib.Data.Finset.Sum
import Mathlib.Logic.Relation

/-!
# Levels and fuel

Texts and comparisons of values are found level by level. With each round of fuel that settles anything
new, one array or map more is settled (`Leveled.lt_card`), or one pair of them, so that they have an answer
with as many rounds as there are of these, or with none.

A value that contains itself nowhere (`Value.Acyclic`) has no more levels of arrays and maps than there
are in storage (`Value.height_inside`): on the way down, none of them comes twice. Wrappers of slots of
type `any` are no levels.
-/

namespace TinyScript

open Relation (ReflTransGen TransGen)

/-! ### References -/

namespace Store
variable {α : Type} {s : Store α} {r : Nat}

/-- The references of all arrays and maps in storage. -/
def refs (s : Store α) : Finset (Nat ⊕ Nat) :=
  (Finset.range s.arrays.size).disjSum (Finset.range s.maps.size)

theorem card_refs (s : Store α) : s.refs.card = s.size := by
  simp [refs, size]

theorem lt_of_mem_array {x : α} (h : x ∈ (s.array r).toList) : r < s.arrays.size := by
  refine Nat.lt_of_not_le fun hge => ?_
  rw [array, Array.getElem?_eq_none hge] at h
  exact List.not_mem_nil h

theorem lt_of_get?_map {k : String} {x : α} (h : (s.map r).get? k = some x) : r < s.maps.size := by
  refine Nat.lt_of_not_le fun hge => ?_
  rw [map, Array.getElem?_eq_none hge] at h
  cases Pairs.get?_empty.symm.trans h

theorem inl_mem_refs {x : α} (h : x ∈ (s.array r).toList) : .inl r ∈ s.refs :=
  Finset.inl_mem_disjSum.2 (Finset.mem_range.2 (lt_of_mem_array h))

theorem inr_mem_refs {k : String} {x : α} (h : (s.map r).get? k = some x) : .inr r ∈ s.refs :=
  Finset.inr_mem_disjSum.2 (Finset.mem_range.2 (lt_of_get?_map h))

end Store

/-! ### Heights -/

section
variable {α κ : Type} {C : α → α → Prop} {v : α}

/-- The relation leads down from here less than `n` times. -/
inductive Height (C : α → α → Prop) : Nat → α → Prop where
  | intro {n : Nat} {v : α} (h : ∀ x, C v x → Height C n x) : Height C (n + 1) v

theorem Height.not_transGen {n : Nat} {w : α} (h : Height C n v) (hw : ReflTransGen C v w) :
    ¬ TransGen C w w := by
  induction h with
  | @intro n v _ ih =>
    intro hcycle
    rcases ReflTransGen.cases_head hw with rfl | ⟨x, hx, hw⟩
    · obtain ⟨x, hx, hback⟩ := TransGen.head'_iff.1 hcycle
      exact ih x hx hback hcycle
    · exact ih x hx hw hcycle

/-- If what lies in something depends on its key only, then on the way down from something without
cycles no key comes twice, and there are no more levels than keys. -/
theorem height_of_acyclic [DecidableEq κ] (key : α → κ) (hkey : ∀ {v w x}, key v = key w → C v x → C w x)
    (hacyclic : ∀ w, ReflTransGen C v w → ¬ TransGen C w w) {keys : Finset κ}
    (hkeys : ∀ w x, ReflTransGen C v w → C w x → key w ∈ keys) : Height C (keys.card + 1) v := by
  obtain ⟨n, hn⟩ : ∃ n, n = keys.card := ⟨_, rfl⟩
  rw [← hn]
  induction n generalizing v keys with
  | zero =>
    refine .intro fun x hx => ?_
    rw [Finset.card_eq_zero.1 hn.symm] at hkeys
    exact absurd (hkeys v x .refl hx) (Finset.notMem_empty _)
  | succ n ih =>
    refine .intro fun x hx => ?_
    -- the key at the top does not come again
    have hleft : n = (keys.erase (key v)).card := by
      rw [Finset.card_erase_of_mem (hkeys v x .refl hx), ← hn, Nat.add_sub_cancel]
    refine ih (fun w hw => hacyclic w (.head hx hw)) (fun w y hw hy => ?_) hleft
    refine Finset.mem_erase.2 ⟨fun heq => ?_, hkeys w y (.head hx hw) hy⟩
    exact hacyclic w (.head hx hw) (.head' (hkey heq.symm hx) hw)

end

/-! ### Answers -/

/-- Answers `F` that are found level by level: an answer is settled, or is that for something among the
`keys`, which is found in the answers of one level less. -/
structure Leveled {ι κ β : Type} (F : Nat → ι → Option β) (W : Nat → κ → Option β) (keys : Finset κ) :
    Prop where
  zero : ∀ i, F 0 i = none
  succ : ∀ i, (∃ v, ∀ n, F (n + 1) i = some v) ∨ ∃ k, ∀ n, F (n + 1) i = W n k
  mono : ∀ n, (∀ i v, F n i = some v → F (n + 1) i = some v) → ∀ k v, W n k = some v → W (n + 1) k = some v
  late : ∀ n, (∀ i v, F n i = some v → F (n + 1) i = some v) → ∀ k, W n k = none → (W (n + 1) k).isSome →
    ∃ i, F n i = none ∧ (F (n + 1) i).isSome
  mem_keys : ∀ n k, W n k = none → k ∈ keys

namespace Leveled
variable {ι κ β : Type} {F : Nat → ι → Option β} {W : Nat → κ → Option β} {keys : Finset κ}
  (h : Leveled F W keys) {m n : Nat} {i : ι} {k : κ} {v : β}
include h

theorem eq_succ : ∀ {n : Nat} {i : ι} {v : β}, F n i = some v → F (n + 1) i = some v := by
  intro n
  induction n with
  | zero =>
    intro i v hv
    rw [h.zero] at hv
    cases hv
  | succ n ih =>
    intro i v hv
    rcases h.succ i with ⟨w, hw⟩ | ⟨k, hk⟩
    · rw [hw] at hv ⊢
      exact hv
    · rw [hk] at hv ⊢
      exact h.mono n (fun i v => ih) k v hv

theorem eq_of_le (hmn : m ≤ n) (hv : F m i = some v) : F n i = some v := by
  induction hmn with
  | refl => exact hv
  | step _ ih => exact h.eq_succ ih

/-- With each level that settles something new, one of the keys more is settled. -/
theorem lt_card (hlate : W n k = none) (hset : (W (n + 1) k).isSome) : n < keys.card := by
  classical
  have hsucc (n : Nat) : ∀ i v, F n i = some v → F (n + 1) i = some v := fun i v => h.eq_succ
  suffices hsettled : n + 1 ≤ (keys.filter fun k => (W (n + 1) k).isSome).card from
    Nat.lt_of_lt_of_le hsettled (Finset.card_filter_le _ _)
  induction n generalizing k with
  | zero => exact Finset.card_pos.2 ⟨k, Finset.mem_filter.2 ⟨h.mem_keys _ k hlate, hset⟩⟩
  | succ n ih =>
    obtain ⟨i, hi, hisome⟩ := h.late _ (hsucc _) k hlate hset
    -- what makes the difference is not settled from the start, so there is a key for it
    rcases h.succ i with ⟨w, hw⟩ | ⟨k', hk'⟩
    · rw [hw] at hi
      cases hi
    · rw [hk'] at hi hisome
      refine Nat.succ_le_of_lt (Nat.lt_of_le_of_lt (ih hi hisome) (Finset.card_lt_card ?_))
      refine Finset.ssubset_iff_of_subset (fun j hj => ?_) |>.2 ⟨k, ?_, ?_⟩
      · obtain ⟨hmem, hj⟩ := Finset.mem_filter.1 hj
        obtain ⟨v, hv⟩ := Option.isSome_iff_exists.1 hj
        exact Finset.mem_filter.2 ⟨hmem, by rw [h.mono _ (hsucc _) j v hv]; rfl⟩
      · exact Finset.mem_filter.2 ⟨h.mem_keys _ k hlate, hset⟩
      · intro hmem
        have := (Finset.mem_filter.1 hmem).2
        rw [hlate] at this
        cases this

/-- An answer that is found at all is found with one level for each key. -/
theorem eq_some_of_exists (hn : keys.card < n) (hv : F m i = some v) : F n i = some v := by
  have hback (j : Nat) (hj : (F (n + j) i).isSome) : (F n i).isSome := by
    induction j with
    | zero => exact hj
    | succ j ih =>
      refine ih (Option.isSome_iff_ne_none.2 fun hnone => ?_)
      obtain ⟨l, hl⟩ : ∃ l, n + j = l + 1 := ⟨n + j - 1, by omega⟩
      rw [← Nat.add_assoc, hl] at hj
      rw [hl] at hnone
      rcases h.succ i with ⟨w, hw⟩ | ⟨k, hk⟩
      · rw [hw] at hnone
        cases hnone
      · rw [hk] at hnone hj
        have := h.lt_card hnone hj
        omega
  have hmax : F (n + m) i = some v := h.eq_of_le (Nat.le_add_left m n) hv
  obtain ⟨w, hw⟩ := Option.isSome_iff_exists.1 (hback m (by rw [hmax]; rfl))
  have hsame : some w = some v := (h.eq_of_le (Nat.le_add_right n m) hw).symm.trans hmax
  exact hw.trans hsame

end Leveled

namespace Value

/-! ### What lies in a value -/

/-- A value lies directly inside another one. -/
inductive Contains (s : Store Value) : Value → Value → Prop where
  | any {v : Value} : Contains s (.any v) v
  | elem {r : Nat} {t : Ty} {x : Value} (hx : x ∈ (s.array r).toList) : Contains s (.array r t) x
  | field {r : Nat} {t : Ty} {k : String} {x : Value} (hx : (s.map r).get? k = some x) :
    Contains s (.map r t) x

/-- Nothing in a value contains itself. -/
def Acyclic (s : Store Value) (v : Value) : Prop :=
  ∀ w, ReflTransGen (Contains s) v w → ¬ TransGen (Contains s) w w

/-- Arrays and maps lie at most `n` levels deep in a value. -/
inductive Levels (s : Store Value) : Nat → Value → Prop where
  | num {n : Nat} (x : Float) : Levels s n (.num x)
  | str {n : Nat} (t : String) : Levels s n (.str t)
  | bool {n : Nat} (b : Bool) : Levels s n (.bool b)
  | none {n : Nat} : Levels s n .none
  | any {n : Nat} {v : Value} (h : Levels s n v) : Levels s n (.any v)
  | array {n r : Nat} {t : Ty} (h : ∀ x ∈ (s.array r).toList, Levels s n x) :
    Levels s (n + 1) (.array r t)
  | map {n r : Nat} {t : Ty} (h : ∀ k x, (s.map r).get? k = some x → Levels s n x) :
    Levels s (n + 1) (.map r t)

/-- The storage of the array or the map that a value is or wraps. -/
def ref? : Value → Option (Nat ⊕ Nat)
  | .array r _ => some (.inl r)
  | .map r _ => some (.inr r)
  | .any v => v.ref?
  | _ => Option.none

/-- A value lies in the array or the map that another value is or wraps. -/
inductive Inside (s : Store Value) (v : Value) : Value → Prop where
  | elem {r : Nat} {x : Value} (href : v.ref? = some (.inl r)) (hx : x ∈ (s.array r).toList) : Inside s v x
  | field {r : Nat} {k : String} {x : Value} (href : v.ref? = some (.inr r))
    (hx : (s.map r).get? k = some x) : Inside s v x

variable {s : Store Value} {v w x : Value}

theorem Acyclic.of_contains (h : v.Acyclic s) (hx : Contains s v x) : x.Acyclic s :=
  fun w hw => h w (.head hx hw)

/-- A value is acyclic if all that lies in it is. -/
theorem acyclic_of_forall (h : ∀ x, Contains s v x → x.Acyclic s) : v.Acyclic s := by
  intro w hw hcycle
  rcases ReflTransGen.cases_head hw with rfl | ⟨x, hx, hw⟩
  · obtain ⟨x, hx, hback⟩ := TransGen.head'_iff.1 hcycle
    exact h x hx v hback hcycle
  · exact h x hx w hw hcycle

theorem acyclic_of_levels {n : Nat} (h : Levels s n v) : v.Acyclic s := by
  induction h with
  | num | str | bool | none => exact acyclic_of_forall fun x hx => nomatch hx
  | any _ ih =>
    refine acyclic_of_forall fun x hx => ?_
    cases hx
    exact ih
  | array _ ih =>
    refine acyclic_of_forall fun x hx => ?_
    cases hx with
    | elem hx => exact ih x hx
  | map _ ih =>
    refine acyclic_of_forall fun x hx => ?_
    cases hx with
    | field hx => exact ih _ x hx

theorem Inside.ref?_mem_refs (h : Inside s v x) : ∃ ref ∈ s.refs, v.ref? = some ref := by
  cases h with
  | elem href hx => exact ⟨_, Store.inl_mem_refs hx, href⟩
  | field href hx => exact ⟨_, Store.inr_mem_refs hx, href⟩

theorem Inside.of_ref? (heq : v.ref? = w.ref?) (h : Inside s v x) : Inside s w x := by
  cases h with
  | elem href hx => exact .elem (heq ▸ href) hx
  | field href hx => exact .field (heq ▸ href) hx

theorem Inside.transGen (h : Inside s v x) : TransGen (Contains s) v x := by
  induction v with
  | any v ih =>
    have hv : (Value.any v).ref? = v.ref? := rfl
    exact .head .any (ih (h.of_ref? hv))
  | array r t =>
    cases h with
    | elem href hx =>
      cases href
      exact .single (.elem hx)
    | field href => cases href
  | map r t =>
    cases h with
    | elem href => cases href
    | field href hx =>
      cases href
      exact .single (.field hx)
  | _ => cases h with
    | elem href => cases href
    | field href => cases href

/-- A value is acyclic if all is that lies in the array or the map that it is or wraps. -/
theorem acyclic_of_inside (h : ∀ x, Inside s v x → x.Acyclic s) : v.Acyclic s := by
  induction v with
  | any v ih =>
    have href : v.ref? = (Value.any v).ref? := rfl
    refine acyclic_of_forall fun x hx => ?_
    cases hx
    exact ih fun x hx => h x (hx.of_ref? href)
  | array r t =>
    refine acyclic_of_forall fun x hx => ?_
    cases hx with
    | elem hx => exact h x (.elem rfl hx)
  | map r t =>
    refine acyclic_of_forall fun x hx => ?_
    cases hx with
    | field hx => exact h x (.field rfl hx)
  | _ => exact acyclic_of_forall fun x hx => by cases hx

theorem height_inside (h : v.Acyclic s) : Height (Inside s) (s.size + 1) v := by
  have hinside : Inside s ≤ TransGen (Contains s) := fun _ _ hx => hx.transGen
  have hcard : (s.refs.map .some).card = s.size := by
    rw [Finset.card_map, Store.card_refs]
  rw [← hcard]
  refine height_of_acyclic ref? (fun heq hx => hx.of_ref? heq) (fun w hw hcycle => ?_) fun w x _ hx => ?_
  · have hw : ReflTransGen (Contains s) v w :=
      Relation.reflTransGen_closed (fun _ _ hx => hx.transGen.to_reflTransGen) v w hw
    exact h w hw (TransGen.closed hinside w w hcycle)
  · obtain ⟨ref, hmem, hw⟩ := hx.ref?_mem_refs
    exact Finset.mem_map.2 ⟨ref, hmem, hw.symm⟩

end Value

end TinyScript
