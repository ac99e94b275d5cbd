import Mathlib.Data.List.Induction
import TinyScript.Proofs.Pairs

/-!
# Maps as lists of entries

The pairs of a map refine an association list, which is all there is to their order: `Entries.put` overwrites
an entry in its place or appends one, and `Entries.delete` takes one out. The list that a map stands for has
the keys of the map in order and the values of its table (`Pairs.Lists`), and each operation on the one is
followed by the operation on the other, so that after any edits both have the same entries
(`Pairs.edits_refine`).
-/

namespace TinyScript

variable {α : Type}

/-! ### Association lists -/

namespace Entries
variable {key key' : String} {a : α} {l : List (String × α)}

/-- Gives a key a value: in the entry that the key has, or in a new one at the end. -/
def put (key : String) (a : α) : List (String × α) → List (String × α)
  | [] => [(key, a)]
  | (k, b) :: rest => if k = key then (key, a) :: rest else (k, b) :: put key a rest

/-- Takes out the entry of a key. -/
def delete (key : String) : List (String × α) → List (String × α)
  | [] => []
  | (k, b) :: rest => if k = key then rest else (k, b) :: delete key rest

/-- The keys in order. -/
def keys (l : List (String × α)) : List String :=
  l.map Prod.fst

theorem lookup_cons {k : String} {b : α} :
    ((k, b) :: l).lookup key = if key = k then some b else l.lookup key := by
  rw [List.lookup_cons]
  by_cases h : key = k
  · rw [if_pos h, beq_iff_eq.2 h]
  · rw [if_neg h, beq_eq_false_iff_ne.2 h]

theorem lookup_eq_none (h : key ∉ keys l) : l.lookup key = none := by
  refine List.lookup_eq_none_iff.2 fun p hp => ?_
  rw [bne_iff_ne]
  rintro rfl
  exact h (List.mem_map_of_mem hp)

theorem keys_put : keys (put key a l) = if key ∈ keys l then keys l else keys l ++ [key] := by
  induction l with
  | nil => rfl
  | cons p rest ih =>
    obtain ⟨k, b⟩ := p
    unfold put
    by_cases h : k = key
    · rw [if_pos h, if_pos (h ▸ List.mem_cons_self), h]
      rfl
    · have hmem : key ∈ keys ((k, b) :: rest) ↔ key ∈ keys rest :=
        List.mem_cons.trans (or_iff_right (Ne.symm h))
      rw [if_neg h]
      show k :: keys (put key a rest) = _
      rw [ih]
      by_cases hrest : key ∈ keys rest
      · rw [if_pos hrest, if_pos (hmem.2 hrest)]
        rfl
      · rw [if_neg hrest, if_neg (hmem.not.2 hrest)]
        rfl

theorem lookup_put : (put key a l).lookup key' = if key' = key then some a else l.lookup key' := by
  induction l with
  | nil => exact lookup_cons
  | cons p rest ih =>
    obtain ⟨k, b⟩ := p
    unfold put
    by_cases h : k = key
    · rw [if_pos h, lookup_cons, lookup_cons, h]
      split <;> rfl
    · rw [if_neg h, lookup_cons, lookup_cons, ih]
      by_cases hkey : key' = k
      · rw [if_pos hkey, if_neg fun h' => h (hkey.symm.trans h'), if_pos hkey]
      · rw [if_neg hkey, if_neg hkey]

theorem keys_delete (hl : (keys l).Nodup) : keys (delete key l) = (keys l).filter (· != key) := by
  induction l with
  | nil => rfl
  | cons p rest ih =>
    obtain ⟨k, b⟩ := p
    obtain ⟨hk, hrest⟩ := List.nodup_cons.1 hl
    unfold delete
    show _ = (k :: keys rest).filter (· != key)
    by_cases h : k = key
    · -- the key does not come again, so nothing else is filtered out
      have hall : ∀ x ∈ keys rest, (x != key) = true := fun x hx => bne_iff_ne.2 fun heq => hk (h ▸ heq ▸ hx)
      rw [if_pos h, List.filter_cons_of_neg (by simp [h]), List.filter_eq_self.2 hall]
    · rw [if_neg h, List.filter_cons_of_pos (by simp [h]), ← ih hrest]
      rfl

theorem lookup_delete (hl : (keys l).Nodup) :
    (delete key l).lookup key' = if key' = key then none else l.lookup key' := by
  induction l with
  | nil => exact (ite_self _).symm
  | cons p rest ih =>
    obtain ⟨k, b⟩ := p
    obtain ⟨hk, hrest⟩ := List.nodup_cons.1 hl
    unfold delete
    by_cases h : k = key
    · rw [if_pos h, lookup_cons]
      by_cases hkey : key' = key
      · rw [if_pos hkey, hkey, ← h]
        exact lookup_eq_none hk
      · rw [if_neg hkey, if_neg fun h' => hkey (h'.trans h)]
    · rw [if_neg h, lookup_cons, lookup_cons, ih hrest]
      by_cases hkey : key' = k
      · rw [if_pos hkey, if_neg fun h' => h (hkey.symm.trans h'), if_pos hkey]
      · rw [if_neg hkey, if_neg hkey]

/-- Looking up all keys in order gives the entries back. -/
theorem filterMap_lookup (hl : (keys l).Nodup) : (keys l).filterMap (fun k => (l.lookup k).map (k, ·)) = l := by
  induction l with
  | nil => rfl
  | cons p rest ih =>
    obtain ⟨k, b⟩ := p
    obtain ⟨hk, hrest⟩ := List.nodup_cons.1 hl
    have hsame : ∀ x ∈ keys rest, (((k, b) :: rest).lookup x).map (x, ·) = (rest.lookup x).map (x, ·) := by
      intro x hx
      rw [lookup_cons, if_neg fun h : x = k => hk (h ▸ hx)]
    show List.filterMap _ (k :: keys rest) = _
    rw [List.filterMap_cons_some (b := (k, b)) (by rw [lookup_cons, if_pos rfl]; rfl),
      List.filterMap_congr hsame, ih hrest]

end Entries

/-! ### The list of a map -/

namespace Pairs
variable {p : Pairs α} {key : String} {a : α} {l : List (String × α)}

/-- An association list has the keys of a map in order, with the values of its table. -/
structure Lists (p : Pairs α) (l : List (String × α)) : Prop where
  keys : p.keys = Entries.keys l
  get? : ∀ key, p.get? key = l.lookup key

namespace Lists

theorem empty : Lists (empty : Pairs α) [] :=
  ⟨rfl, fun _ => get?_empty⟩

theorem insert (hp : p.Sound) (h : p.Lists l) (key : String) (a : α) :
    (p.insert key a).Lists (Entries.put key a l) := by
  refine ⟨?_, fun key' => ?_⟩
  · have hold : key ∈ Entries.keys l ↔ p.contains key := h.keys ▸ hp.mem_keys key
    rw [keys_insert, Entries.keys_put, h.keys]
    exact if_congr hold.symm rfl rfl
  · rw [get?_insert, Entries.lookup_put, h.get?]

theorem erase (hp : p.Sound) (h : p.Lists l) (key : String) :
    (p.erase key).Lists (Entries.delete key l) := by
  have hl : (Entries.keys l).Nodup := h.keys ▸ hp.nodup
  refine ⟨?_, fun key' => ?_⟩
  · rw [Entries.keys_delete hl, ← h.keys]
    by_cases hold : p.contains key
    · exact keys_erase_of_contains hold
    · have hall : ∀ k ∈ p.keys, (k != key) = true :=
        fun k hk => bne_iff_ne.2 fun heq => hold (heq ▸ (hp.mem_keys k).1 hk)
      rw [erase_of_not_contains hold, List.filter_eq_self.2 hall]
  · rw [get?_erase, Entries.lookup_delete hl, h.get?]

theorem toList_eq (hp : p.Sound) (h : p.Lists l) : p.toList = l := by
  have hl : (Entries.keys l).Nodup := h.keys ▸ hp.nodup
  unfold toList
  rw [h.keys]
  exact (List.filterMap_congr fun k _ => by rw [h.get?]).trans (Entries.filterMap_lookup hl)

end Lists

/-! ### Edits -/

/-- What changes a map. -/
inductive Edit (α : Type) where
  | insert (key : String) (a : α)
  | erase (key : String)

namespace Edit

/-- Changes a map. -/
def onPairs (p : Pairs α) : Edit α → Pairs α
  | insert key a => p.insert key a
  | erase key => p.erase key

/-- Changes an association list in the same way. -/
def onEntries (l : List (String × α)) : Edit α → List (String × α)
  | insert key a => Entries.put key a l
  | erase key => Entries.delete key l

theorem built_onPairs (h : p.Built) (e : Edit α) : (e.onPairs p).Built := by
  cases e with
  | insert key a => exact h.insert key a
  | erase key => exact h.erase key

theorem lists_onPairs (hp : p.Sound) (h : p.Lists l) (e : Edit α) : (e.onPairs p).Lists (e.onEntries l) := by
  cases e with
  | insert key a => exact h.insert hp key a
  | erase key => exact h.erase hp key

end Edit

/-- The map after edits of the empty one. -/
def ofEdits (edits : List (Edit α)) : Pairs α :=
  edits.foldl Edit.onPairs empty

theorem edits_built_and_lists (edits : List (Edit α)) :
    (ofEdits edits).Built ∧ (ofEdits edits).Lists (edits.foldl Edit.onEntries []) := by
  induction edits using List.reverseRecOn with
  | nil => exact ⟨.empty, .empty⟩
  | append_singleton edits e ih =>
    obtain ⟨hbuilt, hlists⟩ := ih
    rw [ofEdits, List.foldl_concat, List.foldl_concat]
    exact ⟨e.built_onPairs hbuilt, e.lists_onPairs hbuilt.sound hlists⟩

/-- After any edits of the empty map, the order has no key twice and has exactly the keys of the table, and
the pairs in order are the entries of the association list that went through the same edits. The keys, the
size and the emptiness of the map and its look-ups are those of this list. -/
theorem edits_refine (edits : List (Edit α)) :
    let p := ofEdits edits
    let l := edits.foldl Edit.onEntries []
    p.order.toList.Nodup ∧ (∀ key, key ∈ p.order ↔ key ∈ p.values) ∧
      p.toList = l ∧ p.keys = l.map Prod.fst ∧ p.size = l.length ∧ p.isEmpty = l.isEmpty ∧
      (∀ key, p.get? key = l.lookup key) ∧ ∀ key, p.contains key = (l.lookup key).isSome := by
  intro p l
  obtain ⟨hbuilt, hlists⟩ := edits_built_and_lists edits
  have hp : p.Sound := hbuilt.sound
  have hsize : p.size = l.length :=
    (congrArg List.length hlists.keys).trans (List.length_map _)
  have hempty : p.isEmpty = l.isEmpty := by
    rw [Bool.eq_iff_iff, isEmpty, Array.isEmpty_iff_size_eq_zero, List.isEmpty_iff_length_eq_zero]
    exact iff_of_eq (congrArg (· = 0) hsize)
  refine ⟨hp.nodup, fun key => ?_, hlists.toList_eq hp, hlists.keys, hsize, hempty, hlists.get?, fun key => ?_⟩
  · exact Array.mem_def.trans (hp.mem_keys key)
  · rw [Bool.eq_iff_iff, contains_iff, hlists.get?, Option.isSome_iff_exists]

/-- A key that comes back after it was removed is the last one, and one that gets another value stays. -/
example : (([.insert "x" 1, .insert "y" 2, .insert "x" 3, .erase "y", .insert "z" 5, .insert "y" 4] :
    List (Edit Nat)).foldl Edit.onEntries []) = [("x", 3), ("z", 5), ("y", 4)] := by decide

end Pairs

end TinyScript
