import Mathlib.Data.List.Forall2
import TinyScript.Bytecode.Cell
import TinyScript.Proofs.Pairs
import TinyScript.Proofs.Store
import TinyScript.Value

/-!
# Values and storage of both backends

A value of the evaluator and one of the stack machine mirror each other (`Mirrors`) if they are the same
but for the type that an array or map carries. Storage mirrors storage (`Reflects`) if there are mirrored
elements at the same references. What an access to storage gives mirrors what it gives in the other
storage, and changing both in the same place keeps them mirrored.
-/

namespace TinyScript.Bytecode

/-- A value is the same for the stack machine. No value in a slot of type `any` is. -/
inductive Mirrors : Value → Cell → Prop where
  | num (x : Float) : Mirrors (.num x) (.num x)
  | str (t : String) : Mirrors (.str t) (.str t)
  | bool (b : Bool) : Mirrors (.bool b) (.bool b)
  | array (ref : Nat) (ty : Ty) : Mirrors (.array ref ty) (.array ref)
  | map (ref : Nat) (ty : Ty) : Mirrors (.map ref ty) (.map ref)

/-- Both results are there and related, or both are the same panic. -/
inductive Agreeing {α β : Type} (R : α → β → Prop) : Except Panic α → Except Panic β → Prop where
  | ok {x : α} {y : β} (h : R x y) : Agreeing R (.ok x) (.ok y)
  | panic (p : Panic) : Agreeing R (.error p) (.error p)

theorem Agreeing.bind {α α' β β' : Type} {R : α → β → Prop} {R' : α' → β' → Prop} {r : Except Panic α}
    {t : Except Panic β} {f : α → Except Panic α'} {g : β → Except Panic β'} (h : Agreeing R r t)
    (hf : ∀ x y, R x y → Agreeing R' (f x) (g y)) : Agreeing R' (r >>= f) (t >>= g) := by
  cases h with
  | ok h => exact hf _ _ h
  | panic p => exact .panic p

theorem Agreeing.refl {α : Type} (r : Except Panic α) : Agreeing (· = ·) r r := by
  cases r with
  | ok x => exact .ok rfl
  | error p => exact .panic p

/-! ### Maps -/

/-- Maps, with every key once, that have the same keys in the same order and mirrored values. -/
structure MirrorPairs (p : Pairs Value) (q : Pairs Cell) : Prop where
  sound : p.Sound
  keys : q.keys = p.keys
  get? : ∀ key, Option.Rel Mirrors (p.get? key) (q.get? key)

namespace MirrorPairs
variable {p : Pairs Value} {q : Pairs Cell} {v : Value} {c : Cell}

theorem empty : MirrorPairs .empty .empty where
  sound := .empty
  keys := rfl
  get? key := by
    rw [Pairs.get?_empty, Pairs.get?_empty]
    exact .none

theorem contains_eq (h : MirrorPairs p q) (key : String) : q.contains key = p.contains key := by
  rw [Bool.eq_iff_iff, Pairs.contains_iff, Pairs.contains_iff]
  have := h.get? key
  revert this
  cases p.get? key <;> cases q.get? key <;> simp

theorem insert (h : MirrorPairs p q) (key : String) (hv : Mirrors v c) :
    MirrorPairs (p.insert key v) (q.insert key c) where
  sound := h.sound.insert key v
  keys := by rw [Pairs.keys_insert, Pairs.keys_insert, h.contains_eq, h.keys]
  get? key' := by
    rw [Pairs.get?_insert, Pairs.get?_insert]
    split
    · exact .some hv
    · exact h.get? key'

theorem sound_right (h : MirrorPairs p q) : q.Sound where
  nodup := h.keys ▸ h.sound.nodup
  mem_keys key := by rw [h.keys, h.sound.mem_keys, h.contains_eq]

theorem size_eq (h : MirrorPairs p q) : q.size = p.size := by
  have := congrArg List.length h.keys
  simpa [Pairs.keys, Pairs.size] using this

theorem toList (h : MirrorPairs p q) :
    List.Forall₂ (fun x y => y.1 = x.1 ∧ Mirrors x.2 y.2) p.toList q.toList := by
  unfold Pairs.toList
  rw [h.keys]
  generalize p.keys = keys
  induction keys with
  | nil => exact .nil
  | cons key keys ih =>
    have := h.get? key
    simp only [List.filterMap_cons]
    revert this
    cases p.get? key <;> cases q.get? key <;> rintro ⟨⟩
    · exact ih
    · next hv => exact .cons ⟨rfl, hv⟩ ih

end MirrorPairs

/-! ### Storage -/

/-- Storage with mirrored arrays and maps at the same references. -/
structure Reflects (s : Store Value) (t : Store Cell) : Prop where
  arrays_size : t.arrays.size = s.arrays.size
  maps_size : t.maps.size = s.maps.size
  array : ∀ ref, List.Forall₂ Mirrors (s.array ref).toList (t.array ref).toList
  map : ∀ ref, MirrorPairs (s.map ref) (t.map ref)

namespace Reflects
variable {s : Store Value} {t : Store Cell} {v : Value} {c : Cell} {ref : Nat}

theorem size_eq (h : Reflects s t) : t.size = s.size := by
  rw [Store.size, Store.size, h.arrays_size, h.maps_size]

theorem size_array (h : Reflects s t) (ref : Nat) : (t.array ref).size = (s.array ref).size := by
  simpa using (h.array ref).length_eq.symm

theorem getElem? (h : Reflects s t) (ref i : Nat) :
    Option.Rel Mirrors (s.array ref)[i]? (t.array ref)[i]? := by
  have hall := h.array ref
  rw [← Array.getElem?_toList, ← Array.getElem?_toList]
  revert hall
  generalize (s.array ref).toList = vs
  generalize (t.array ref).toList = cs
  intro hall
  induction hall generalizing i with
  | nil => exact .none
  | cons hv _ ih =>
    cases i with
    | zero => exact .some hv
    | succ i => exact ih i

/-- New arrays get the same reference. -/
theorem newArray (h : Reflects s t) {vs : Array Value} {cs : Array Cell}
    (hvs : List.Forall₂ Mirrors vs.toList cs.toList) :
    (t.newArray cs).1 = (s.newArray vs).1 ∧ Reflects (s.newArray vs).2 (t.newArray cs).2 := by
  refine ⟨h.arrays_size, ?_, h.maps_size, fun r => ?_, h.map⟩
  · simp [Store.newArray, h.arrays_size]
  · rw [Store.array_newArray, Store.array_newArray, h.arrays_size]
    split
    · exact hvs
    · exact h.array r

/-- New maps get the same reference. -/
theorem newMap (h : Reflects s t) {p : Pairs Value} {q : Pairs Cell} (hp : MirrorPairs p q) :
    (t.newMap q).1 = (s.newMap p).1 ∧ Reflects (s.newMap p).2 (t.newMap q).2 := by
  refine ⟨h.maps_size, h.arrays_size, ?_, h.array, fun r => ?_⟩
  · simp [Store.newMap, h.maps_size]
  · rw [Store.map_newMap, Store.map_newMap, h.maps_size]
    split
    · exact hp
    · exact h.map r

theorem setElem (h : Reflects s t) (ref i : Nat) (hv : Mirrors v c) :
    Reflects (s.setElem ref i v) (t.setElem ref i c) := by
  refine ⟨?_, h.maps_size, fun r => ?_, h.map⟩
  · simp [Store.setElem, h.arrays_size]
  · rw [Store.array_setElem, Store.array_setElem]
    split
    · rw [Array.toList_setIfInBounds, Array.toList_setIfInBounds]
      have hall := h.array ref
      revert hall
      generalize (s.array ref).toList = vs
      generalize (t.array ref).toList = cs
      intro hall
      induction hall generalizing i with
      | nil => exact .nil
      | cons hw hrest ih =>
        cases i with
        | zero => exact .cons hv hrest
        | succ i => exact .cons hw (ih i)
    · exact h.array r

theorem setField (h : Reflects s t) (ref : Nat) (key : String) (hv : Mirrors v c) :
    Reflects (s.modifyMap ref (·.insert key v)) (t.modifyMap ref (·.insert key c)) := by
  refine ⟨h.arrays_size, ?_, h.array, fun r => ?_⟩
  · simp [Store.modifyMap, h.maps_size]
  · rw [Store.map_modifyMap, Store.map_modifyMap, h.maps_size]
    split
    · exact (h.map ref).insert key hv
    · exact h.map r

theorem placeOf_eq (h : Reflects s t) (ref : Nat) (x : Float) : t.placeOf ref x = s.placeOf ref x := by
  rw [Store.placeOf, Store.placeOf, h.size_array]

theorem elemAt (h : Reflects s t) (ref : Nat) (x : Float) :
    Agreeing Mirrors (s.elemAt ref x) (t.elemAt ref x) := by
  unfold Store.elemAt
  rw [h.placeOf_eq]
  refine (Agreeing.refl _).bind fun i _ heq => heq ▸ ?_
  have := h.getElem? ref i
  revert this
  cases (s.array ref)[i]? <;> cases (t.array ref)[i]? <;> rintro ⟨⟩
  · exact .panic _
  · next hv => exact .ok hv

theorem fieldOf (h : Reflects s t) (ref : Nat) (key : String) :
    Agreeing Mirrors (s.fieldOf ref key) (t.fieldOf ref key) := by
  have := (h.map ref).get? key
  unfold Store.fieldOf
  revert this
  cases (s.map ref).get? key <;> cases (t.map ref).get? key <;> rintro ⟨⟩
  · exact .panic _
  · next hv => exact .ok hv

theorem sliceOf (h : Reflects s t) (ref : Nat) (start stop : Option Float) :
    Agreeing (fun vs cs => List.Forall₂ Mirrors vs.toList cs.toList) (s.sliceOf ref start stop)
      (t.sliceOf ref start stop) := by
  unfold Store.sliceOf
  dsimp only
  rw [h.size_array]
  refine (Agreeing.refl _).bind fun ⟨i, j⟩ _ heq => heq ▸ .ok ?_
  rw [Array.toList_extract, Array.toList_extract, List.extract_eq_take_drop, List.extract_eq_take_drop]
  exact List.forall₂_take _ (List.forall₂_drop _ (h.array ref))

end Reflects

end TinyScript.Bytecode
