import TinyScript.Store

/-!
# Operations on storage

What an operation leaves at each reference. Storage only grows, and an element is replaced in its place:
none of the operations on storage that running programs use changes the length of an array that is there
(`Store.SameLengths`).
-/

namespace TinyScript.Store

variable {α : Type} {s t u : Store α} {r : Nat}

theorem array_newArray (ys : Array α) : (s.newArray ys).2.array r = if r = s.arrays.size then ys else s.array r := by
  unfold newArray array
  rw [Array.getElem?_push]
  split <;> rfl

theorem map_newMap (p : Pairs α) : (s.newMap p).2.map r = if r = s.maps.size then p else s.map r := by
  unfold newMap map
  rw [Array.getElem?_push]
  split <;> rfl

theorem array_setElem (ref i : Nat) (v : α) :
    (s.setElem ref i v).array r = if r = ref then (s.array ref).setIfInBounds i v else s.array r := by
  unfold setElem array
  rw [Array.getElem?_modify]
  by_cases h : ref = r
  · subst h
    rw [if_pos rfl, if_pos rfl]
    cases s.arrays[ref]? <;> rfl
  · rw [if_neg h, if_neg (Ne.symm h)]

/-- A map without storage stays empty. -/
theorem map_modifyMap (ref : Nat) (f : Pairs α → Pairs α) : (s.modifyMap ref f).map r =
    if r = ref ∧ ref < s.maps.size then f (s.map ref) else s.map r := by
  unfold modifyMap map
  rw [Array.getElem?_modify]
  by_cases h : ref = r
  · subst h
    by_cases hlt : ref < s.maps.size <;> simp [hlt]
  · rw [if_neg h, if_neg fun hr => h hr.1.symm]

/-- The arrays of `s` are in `t`, with as many elements each. -/
structure SameLengths (s t : Store α) : Prop where
  arrays : s.arrays.size ≤ t.arrays.size
  length : ∀ ref < s.arrays.size, (t.array ref).size = (s.array ref).size

namespace SameLengths

theorem refl (s : Store α) : s.SameLengths s :=
  ⟨Nat.le_refl _, fun _ _ => rfl⟩

theorem trans (h : s.SameLengths t) (h' : t.SameLengths u) : s.SameLengths u :=
  ⟨Nat.le_trans h.arrays h'.arrays, fun ref hlt =>
    (h'.length ref (Nat.lt_of_lt_of_le hlt h.arrays)).trans (h.length ref hlt)⟩

theorem newArray (s : Store α) (elems : Array α) : s.SameLengths (s.newArray elems).2 := by
  refine ⟨by simp [Store.newArray], fun ref hlt => ?_⟩
  simp [Store.newArray, Store.array, Array.getElem?_push, Nat.ne_of_lt hlt]

theorem newMap (s : Store α) (pairs : Pairs α) : s.SameLengths (s.newMap pairs).2 :=
  ⟨Nat.le_refl _, fun _ _ => rfl⟩

theorem setElem (s : Store α) (ref i : Nat) (v : α) : s.SameLengths (s.setElem ref i v) := by
  refine ⟨by simp [Store.setElem], fun r hlt => ?_⟩
  rw [Store.array, Store.array, Store.setElem, Array.getElem?_modify]
  split
  · rw [Array.getElem?_eq_getElem hlt]
    exact Array.size_setIfInBounds
  · rfl

theorem modifyMap (s : Store α) (ref : Nat) (f : Pairs α → Pairs α) :
    s.SameLengths (s.modifyMap ref f) :=
  ⟨Nat.le_refl _, fun _ _ => rfl⟩

end SameLengths

/-- An array that has elements is in the storage. -/
theorem lt_of_lt_array {ref i : Nat} (h : i < (s.array ref).size) : ref < s.arrays.size := by
  refine Nat.lt_of_not_le fun hge => ?_
  rw [array, Array.getElem?_eq_none hge] at h
  exact Nat.not_lt_zero _ h

end TinyScript.Store
