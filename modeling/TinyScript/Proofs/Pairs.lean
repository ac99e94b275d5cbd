import Mathlib.Data.List.Perm.Subperm
import TinyScript.Pairs

/-!
# Look-ups in maps

What `Pairs.get?` finds after each operation on the pairs of a map. Pairs that are made by inserting and
removing are sound (`Pairs.Built.sound`): the keys in order are those of the table, each of them once.
-/

namespace TinyScript.Pairs
variable {α : Type} {p q : Pairs α} {key key' : String} {a : α}

@[simp] theorem get?_empty : (empty : Pairs α).get? key = none := by
  simp [empty, get?]

theorem get?_insert : (p.insert key a).get? key' = if key' = key then some a else p.get? key' := by
  unfold insert get?
  by_cases h : key' = key
  · subst h
    split <;> simp
  · have h' : (key == key') = false := beq_eq_false_iff_ne.2 (Ne.symm h)
    split <;> simp [Std.HashMap.getElem?_insert, h']

theorem get?_erase : (p.erase key).get? key' = if key' = key then none else p.get? key' := by
  unfold erase get?
  split
  · rw [Std.HashMap.getElem?_erase]
    by_cases h : key' = key
    · rw [if_pos h, if_pos (beq_iff_eq.2 h.symm)]
    · rw [if_neg h, if_neg fun heq => h (beq_iff_eq.1 heq).symm]
  · next hnew =>
    split
    · next h => exact h ▸ Std.HashMap.getElem?_eq_none_of_contains_eq_false (Bool.eq_false_iff.2 hnew)
    · rfl

theorem get?_of_get?_erase (h : (p.erase key).get? key' = some a) : p.get? key' = some a := by
  rw [get?_erase] at h
  split at h
  · cases h
  · exact h

theorem get?_of_mem_toList (h : (key, a) ∈ p.toList) : p.get? key = some a := by
  obtain ⟨k, -, hk⟩ := List.mem_filterMap.1 h
  obtain ⟨b, hb, heq⟩ := Option.map_eq_some_iff.1 hk
  cases heq
  exact hb

/-! ### The order and the table -/

/-- Pairs that are made from none by inserting and removing. -/
inductive Built : Pairs α → Prop where
  | empty : Built .empty
  | insert {p : Pairs α} (h : Built p) (key : String) (a : α) : Built (p.insert key a)
  | erase {p : Pairs α} (h : Built p) (key : String) : Built (p.erase key)

/-- The keys in order are those of the table, each of them once. -/
structure Sound (p : Pairs α) : Prop where
  nodup : p.keys.Nodup
  mem_keys : ∀ key, key ∈ p.keys ↔ p.contains key

theorem contains_iff : p.contains key ↔ ∃ a, p.get? key = some a := by
  rw [contains, get?, ← Option.isSome_iff_exists, Std.HashMap.isSome_getElem?_eq_contains]

@[simp] theorem not_contains_empty : ¬ (empty : Pairs α).contains key := by
  rw [contains_iff, get?_empty]
  exact nofun

theorem contains_insert : (p.insert key a).contains key' ↔ key' = key ∨ p.contains key' := by
  rw [contains_iff, contains_iff, get?_insert]
  split
  · next h => exact iff_of_true ⟨a, rfl⟩ (.inl h)
  · next h => rw [or_iff_right h]

theorem contains_erase : (p.erase key).contains key' ↔ key' ≠ key ∧ p.contains key' := by
  unfold erase
  split
  · simp only [contains, Std.HashMap.contains_erase, Bool.and_eq_true, Bool.not_eq_true',
      beq_eq_false_iff_ne, ne_comm]
  · next hnew =>
    refine ⟨fun h => ⟨?_, h⟩, And.right⟩
    rintro rfl
    exact hnew h

theorem keys_empty : (empty : Pairs α).keys = [] := rfl

theorem keys_insert : (p.insert key a).keys = if p.contains key then p.keys else p.keys ++ [key] := by
  unfold insert contains
  split
  · rfl
  · exact Array.toList_push

theorem keys_erase_of_contains (h : p.contains key) : (p.erase key).keys = p.keys.filter (· != key) :=
  (congrArg keys (if_pos h)).trans Array.toList_filter

theorem erase_of_not_contains (h : ¬ p.contains key) : p.erase key = p :=
  if_neg h

namespace Sound

theorem empty : Sound (empty : Pairs α) where
  nodup := .nil
  mem_keys key := by simp [keys, contains, Pairs.empty]

theorem insert (h : p.Sound) (key : String) (a : α) : (p.insert key a).Sound := by
  by_cases hold : p.contains key
  · refine ⟨?_, fun key' => ?_⟩
    · rw [keys_insert, if_pos hold]
      exact h.nodup
    · rw [keys_insert, if_pos hold, h.mem_keys, contains_insert]
      refine ⟨.inr, fun hor => ?_⟩
      rcases hor with rfl | hkey
      · exact hold
      · exact hkey
  · have hnew : key ∉ p.keys := fun hmem => hold ((h.mem_keys key).1 hmem)
    refine ⟨?_, fun key' => ?_⟩
    · rw [keys_insert, if_neg hold]
      exact List.nodup_append.2 ⟨h.nodup, List.pairwise_singleton _ key, fun k hk k' hk' heq =>
        hnew (List.mem_singleton.1 hk' ▸ heq ▸ hk)⟩
    · rw [keys_insert, if_neg hold, List.mem_append, List.mem_singleton, h.mem_keys,
        contains_insert, or_comm]

theorem erase (h : p.Sound) (key : String) : (p.erase key).Sound := by
  by_cases hold : p.contains key
  · refine ⟨?_, fun key' => ?_⟩
    · rw [keys_erase_of_contains hold]
      exact h.nodup.filter _
    · rw [keys_erase_of_contains hold, List.mem_filter, h.mem_keys, contains_erase, bne_iff_ne, and_comm]
  · rw [erase_of_not_contains hold]
    exact h

theorem mem_toList_iff (h : p.Sound) : (key, a) ∈ p.toList ↔ p.get? key = some a := by
  refine ⟨get?_of_mem_toList, fun hget => ?_⟩
  have hmem : key ∈ p.keys := (h.mem_keys key).2 (contains_iff.2 ⟨a, hget⟩)
  exact List.mem_filterMap.2 ⟨key, hmem, by rw [hget]; rfl⟩

/-- If all keys of one map are in another one with as many keys, then the other one has no more keys. -/
theorem keys_subset (hp : p.Sound) (hsize : p.size = q.size) (hsub : p.keys ⊆ q.keys) : q.keys ⊆ p.keys := by
  have hperm := (List.subperm_of_subset hp.nodup hsub).perm_of_length_le (Nat.le_of_eq hsize.symm)
  exact hperm.symm.subset

end Sound

theorem Built.sound (h : p.Built) : p.Sound := by
  induction h with
  | empty => exact .empty
  | insert _ key a ih => exact ih.insert key a
  | erase _ key ih => exact ih.erase key

/-! ### Maps with matching values -/

/-- Two maps have as many keys, and all keys of the first one are in the second one, with values that
match. -/
def Matches (r : α → α → Prop) (p q : Pairs α) : Prop :=
  p.size = q.size ∧ ∀ key a, (key, a) ∈ p.toList → ∃ b, q.get? key = some b ∧ r a b

variable {r : α → α → Prop} {p₁ p₂ p₃ : Pairs α}

theorem Matches.symm (hp : p.Sound) (hq : q.Sound) (hr : ∀ a b, r a b → r b a) (h : Matches r p q) :
    Matches r q p := by
  obtain ⟨hsize, hall⟩ := h
  refine ⟨hsize.symm, fun key b hb => ?_⟩
  have hsub : p.keys ⊆ q.keys := by
    intro k hk
    obtain ⟨a, ha⟩ := contains_iff.1 ((hp.mem_keys k).1 hk)
    obtain ⟨b, hb, -⟩ := hall k a (hp.mem_toList_iff.2 ha)
    exact (hq.mem_keys k).2 (contains_iff.2 ⟨b, hb⟩)
  have hget := hq.mem_toList_iff.1 hb
  have hmem : key ∈ p.keys := hp.keys_subset hsize hsub ((hq.mem_keys key).2 (contains_iff.2 ⟨b, hget⟩))
  obtain ⟨a, ha⟩ := contains_iff.1 ((hp.mem_keys key).1 hmem)
  obtain ⟨b', hb', hab⟩ := hall key a (hp.mem_toList_iff.2 ha)
  obtain rfl : b = b' := Option.some.inj (hget.symm.trans hb')
  exact ⟨a, ha, hr _ _ hab⟩

theorem Matches.trans (h₂ : p₂.Sound) (hr : ∀ a b c, r a b → r b c → r a c) (h : Matches r p₁ p₂)
    (h' : Matches r p₂ p₃) : Matches r p₁ p₃ := by
  refine ⟨h.1.trans h'.1, fun key a ha => ?_⟩
  obtain ⟨b, hb, hab⟩ := h.2 key a ha
  obtain ⟨c, hc, hbc⟩ := h'.2 key b (h₂.mem_toList_iff.2 hb)
  exact ⟨c, hc, hr _ _ _ hab hbc⟩

end TinyScript.Pairs
