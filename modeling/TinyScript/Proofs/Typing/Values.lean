import TinyScript.Eval.Machine
import TinyScript.Proofs.Typing.Types
import Mathlib.Data.List.Forall2

/-!
# Types of values

A `StoreTy` gives every array and map in storage the type of its elements, and says which arrays are
empty, as they stay for good. Values are typed against it (`HasType`), storage has to keep to it
(`StoreTyped`), and it only ever grows (`StoreTy.le`), so that a value keeps its types. The type that
an array or map carries is the one of its storage. Frames are typed level by level: a local frame has
the variables of its level, while the globals can lack those that are declared later.
-/

namespace TinyScript

/-- The type of an array in storage: that of its elements, and whether it is known that there are
none. -/
structure ArrayTy where
  elem : Ty
  isEmpty : Bool
  isEmpty_of_none : elem.kind = .none → isEmpty

/-- The types of the arrays in storage and the element types of the maps. -/
structure StoreTy where
  arrays : Array ArrayTy := #[]
  maps : Array Ty := #[]

namespace StoreTy

/-- `Θ'` gives all storage of `Θ` the same type. -/
structure le (Θ Θ' : StoreTy) : Prop where
  arrays : ∀ (r : Nat) e, Θ.arrays[r]? = some e → Θ'.arrays[r]? = some e
  maps : ∀ (r : Nat) e, Θ.maps[r]? = some e → Θ'.maps[r]? = some e

instance : LE StoreTy := ⟨le⟩

theorem le_refl (Θ : StoreTy) : Θ ≤ Θ := ⟨fun _ _ h => h, fun _ _ h => h⟩

theorem le_trans {Θ Θ' Θ'' : StoreTy} (h : Θ ≤ Θ') (h' : Θ' ≤ Θ'') : Θ ≤ Θ'' :=
  ⟨fun r e hr => h'.arrays r e (h.arrays r e hr), fun r e hr => h'.maps r e (h.maps r e hr)⟩

/-- One more array. -/
def pushArray (Θ : StoreTy) (a : ArrayTy) : StoreTy :=
  { Θ with arrays := Θ.arrays.push a }

/-- One more map. -/
def pushMap (Θ : StoreTy) (e : Ty) : StoreTy :=
  { Θ with maps := Θ.maps.push e }

theorem le_pushArray (Θ : StoreTy) (a : ArrayTy) : Θ ≤ Θ.pushArray a := by
  refine ⟨fun r t h => ?_, fun _ _ h => h⟩
  obtain ⟨hr, -⟩ := Array.getElem?_eq_some_iff.1 h
  rw [← h, pushArray, Array.getElem?_push_lt hr, Array.getElem?_eq_getElem hr]

theorem le_pushMap (Θ : StoreTy) (e : Ty) : Θ ≤ Θ.pushMap e := by
  refine ⟨fun _ _ h => h, fun r t h => ?_⟩
  obtain ⟨hr, -⟩ := Array.getElem?_eq_some_iff.1 h
  rw [← h, pushMap, Array.getElem?_push_lt hr, Array.getElem?_eq_getElem hr]

end StoreTy

/-! ### Values -/

/-- The kind of a value. -/
def Value.kind : Value → Kind
  | .num _ => .num
  | .str _ => .string
  | .bool _ => .bool
  | .any _ => .any
  | .array _ _ => .array
  | .map _ _ => .map
  | .none => .none

/-- The type that a value carries is that of its storage, and what is wrapped is of a type that can
be. -/
def Value.WellFormed (Θ : StoreTy) : Value → Prop
  | .num _ | .str _ | .bool _ | .none => True
  | .any v => v.typeOf.same .any = false ∧ v.typeOf.wrappable ∧ v.WellFormed Θ
  | .array r t => ∃ a, Θ.arrays[r]? = some a ∧ t.same (.array a.elem)
  | .map r t => ∃ e, Θ.maps[r]? = some e ∧ t.same (.map e)

theorem Value.WellFormed.mono {Θ Θ' : StoreTy} {v : Value} (hle : Θ ≤ Θ') (h : v.WellFormed Θ) :
    v.WellFormed Θ' := by
  induction v with
  | num | str | bool | none => trivial
  | any v ih => exact ⟨h.1, h.2.1, ih h.2.2⟩
  | array r t =>
    obtain ⟨a, ha, ht⟩ := h
    exact ⟨a, hle.arrays r a ha, ht⟩
  | map r t =>
    obtain ⟨e, he, ht⟩ := h
    exact ⟨e, hle.maps r e he, ht⟩

/-- A value is of a type. -/
structure HasType (Θ : StoreTy) (v : Value) (τ : Ty) : Prop where
  same : τ.same v.typeOf
  wellFormed : v.WellFormed Θ

namespace HasType
variable {Θ Θ' : StoreTy} {v : Value} {τ τ' : Ty}

theorem mono (hle : Θ ≤ Θ') (h : HasType Θ v τ) : HasType Θ' v τ :=
  ⟨h.same, h.wellFormed.mono hle⟩

theorem of_same (h : HasType Θ v τ) (hs : τ'.same τ) : HasType Θ v τ' :=
  ⟨Ty.same_trans hs h.same, h.wellFormed⟩

theorem num (hs : τ.same .num) (x : Float) : HasType Θ (.num x) τ := ⟨hs, trivial⟩

theorem str (hs : τ.same .string) (s : String) : HasType Θ (.str s) τ := ⟨hs, trivial⟩

theorem bool (hs : τ.same .bool) (b : Bool) : HasType Θ (.bool b) τ := ⟨hs, trivial⟩

theorem none (hs : τ.same .none) : HasType Θ .none τ := ⟨hs, trivial⟩

/-- The kind of the type of a value is that of the value. -/
theorem kind_eq (h : HasType Θ v τ) : τ.kind = v.kind := by
  rw [Ty.kind_eq_of_same h.same]
  cases v with
  | num | str | bool | none | any => rfl
  | array r t =>
    obtain ⟨a, -, ht⟩ := h.wellFormed
    exact Ty.kind_eq_of_same ht
  | map r t =>
    obtain ⟨e, -, ht⟩ := h.wellFormed
    exact Ty.kind_eq_of_same ht

theorem num_inv (h : HasType Θ v τ) (hk : τ.kind = .num) : ∃ x, v = .num x := by
  rw [h.kind_eq] at hk
  cases v <;> first | exact ⟨_, rfl⟩ | cases hk

theorem str_inv (h : HasType Θ v τ) (hk : τ.kind = .string) : ∃ s, v = .str s := by
  rw [h.kind_eq] at hk
  cases v <;> first | exact ⟨_, rfl⟩ | cases hk

theorem bool_inv (h : HasType Θ v τ) (hk : τ.kind = .bool) : ∃ b, v = .bool b := by
  rw [h.kind_eq] at hk
  cases v <;> first | exact ⟨_, rfl⟩ | cases hk

theorem any_inv (h : HasType Θ v τ) (hk : τ.kind = .any) : ∃ w, v = .any w := by
  rw [h.kind_eq] at hk
  cases v <;> first | exact ⟨_, rfl⟩ | cases hk

theorem array_inv (h : HasType Θ v τ) (hk : τ.kind = .array) : ∃ r t, v = .array r t := by
  rw [h.kind_eq] at hk
  cases v <;> first | exact ⟨_, _, rfl⟩ | cases hk

theorem map_inv (h : HasType Θ v τ) (hk : τ.kind = .map) : ∃ r t, v = .map r t := by
  rw [h.kind_eq] at hk
  cases v <;> first | exact ⟨_, _, rfl⟩ | cases hk

/-- A value in a slot of type `any`. -/
theorem toAny (h : HasType Θ v τ) (hw : τ.wrappable) : HasType Θ v.toAny .any := by
  have hkind := h.kind_eq
  rw [Ty.wrappable_of_same h.same] at hw
  rw [Ty.kind_eq_of_same h.same] at hkind
  have hne (hk : v.kind ≠ .any) : v.typeOf.same .any = false := by
    rw [Bool.eq_false_iff]
    exact fun hs => hk (hkind.symm.trans (Ty.kind_eq_of_same hs))
  cases v with
  | any v => exact ⟨rfl, h.wellFormed⟩
  | num | str | bool | none | array | map => exact ⟨rfl, hne (by simp [Value.kind]), hw, h.wellFormed⟩

/-- What is wrapped is of each settled type that it fits. -/
theorem of_fits (h : HasType Θ (.any v) τ) (hs : τ'.settled) (hf : τ'.fits v.typeOf) :
    HasType Θ v τ' := by
  obtain ⟨-, hw, h⟩ := h.wellFormed
  simp only [Ty.wrappable, Bool.or_eq_true] at hw
  rcases hw with hw | hw
  · exact ⟨Ty.same_of_fits hs hw hf, h⟩
  · have hk : τ'.kind = .none := by
      rw [Ty.kind_eq_of_fits hf, Ty.kind_eq_of_same hw]; rfl
    exact absurd hk (Ty.kind_ne_none_of_settled hs)

/-- The storage of an array value. -/
theorem array_storage {r : Nat} {t : Ty} (h : HasType Θ (.array r t) τ) :
    ∃ a, Θ.arrays[r]? = some a ∧ τ.elem.same a.elem := by
  obtain ⟨a, ha, ht⟩ := h.wellFormed
  exact ⟨a, ha, Ty.elem_same_of_same (Ty.same_trans h.same ht)⟩

/-- The storage of a map value. -/
theorem map_storage {r : Nat} {t : Ty} (h : HasType Θ (.map r t) τ) :
    ∃ e, Θ.maps[r]? = some e ∧ τ.elem.same e := by
  obtain ⟨e, he, ht⟩ := h.wellFormed
  exact ⟨e, he, Ty.elem_same_of_same (Ty.same_trans h.same ht)⟩

end HasType

/-- A value is an array without elements. -/
def Value.IsEmptyArray (Θ : StoreTy) (v : Value) : Prop :=
  ∃ r t a, v = .array r t ∧ Θ.arrays[r]? = some a ∧ a.isEmpty

theorem Value.IsEmptyArray.mono {Θ Θ' : StoreTy} {v : Value} (hle : Θ ≤ Θ')
    (h : v.IsEmptyArray Θ) : v.IsEmptyArray Θ' := by
  obtain ⟨r, t, a, hv, ha, he⟩ := h
  exact ⟨r, t, a, hv, hle.arrays r a ha, he⟩

/-! ### Storage -/

/-- Storage keeps to its types. -/
structure StoreTyped (Θ : StoreTy) (s : Store Value) : Prop where
  arrays_size : Θ.arrays.size = s.arrays.size
  maps_size : Θ.maps.size = s.maps.size
  array : ∀ r a, Θ.arrays[r]? = some a → ∀ v ∈ (s.array r).toList, HasType Θ v a.elem
  empty : ∀ r a, Θ.arrays[r]? = some a → a.isEmpty → s.array r = #[]
  map : ∀ r e, Θ.maps[r]? = some e → ∀ k v, (s.map r).get? k = some v → HasType Θ v e

namespace StoreTyped
variable {Θ : StoreTy} {s : Store Value} {e : Ty}

theorem nil : StoreTyped {} {} :=
  ⟨rfl, rfl, fun r a h => by simp at h, fun r a h => by simp at h, fun r e h => by simp at h⟩

theorem newArray (h : StoreTyped Θ s) {elems : Array Value} {a : ArrayTy}
    (ht : ∀ v ∈ elems.toList, HasType Θ v a.elem) (he : a.isEmpty → elems = #[]) :
    StoreTyped (Θ.pushArray a) (s.newArray elems).2 := by
  have hle := Θ.le_pushArray a
  have hlast : ∀ r t, (Θ.pushArray a).arrays[r]? = some t → Θ.arrays[r]? = some t ∧
      (s.newArray elems).2.array r = s.array r ∨ t = a ∧ (s.newArray elems).2.array r = elems := by
    intro r t hr
    rw [StoreTy.pushArray, Array.getElem?_push] at hr
    split at hr
    · next heq =>
      refine .inr ⟨(Option.some.inj hr).symm, ?_⟩
      simp [Store.newArray, Store.array, heq, h.arrays_size]
    · next hne =>
      refine .inl ⟨hr, ?_⟩
      rw [h.arrays_size] at hne
      simp [Store.newArray, Store.array, Array.getElem?_push, hne]
  refine ⟨?_, h.maps_size, ?_, ?_, ?_⟩
  · simp [StoreTy.pushArray, Store.newArray, h.arrays_size]
  · intro r t hr v hv
    rcases hlast r t hr with ⟨hr, heq⟩ | ⟨rfl, heq⟩ <;> rw [heq] at hv
    · exact (h.array r t hr v hv).mono hle
    · exact (ht v hv).mono hle
  · intro r t hr hk
    rcases hlast r t hr with ⟨hr, heq⟩ | ⟨rfl, heq⟩ <;> rw [heq]
    · exact h.empty r t hr hk
    · exact he hk
  · exact fun r t hr k v hv => (h.map r t hr k v hv).mono hle

theorem newMap (h : StoreTyped Θ s) {pairs : Pairs Value}
    (ht : ∀ k v, pairs.get? k = some v → HasType Θ v e) :
    StoreTyped (Θ.pushMap e) (s.newMap pairs).2 := by
  have hle := Θ.le_pushMap e
  refine ⟨h.arrays_size, ?_, ?_, h.empty, ?_⟩
  · simp [StoreTy.pushMap, Store.newMap, h.maps_size]
  · exact fun r t hr v hv => (h.array r t hr v hv).mono hle
  · intro r t hr k v hv
    rw [StoreTy.pushMap, Array.getElem?_push] at hr
    split at hr
    · next heq =>
      cases hr
      simp only [Store.newMap, Store.map, heq, h.maps_size, Array.getElem?_push_size,
        Option.getD_some] at hv
      exact (ht k v hv).mono hle
    · next hne =>
      rw [h.maps_size] at hne
      simp only [Store.newMap, Store.map, Array.getElem?_push, hne, ↓reduceIte] at hv
      exact (h.map r t hr k v hv).mono hle

theorem setElem (h : StoreTyped Θ s) {r i : Nat} {v : Value} {a : ArrayTy}
    (hr : Θ.arrays[r]? = some a) (hv : HasType Θ v a.elem) : StoreTyped Θ (s.setElem r i v) := by
  have hget : ∀ r', (s.setElem r i v).array r' =
      if r' = r then (s.array r).setIfInBounds i v else s.array r' := by
    intro r'
    simp only [Store.setElem, Store.array, Array.getElem?_modify]
    by_cases hrr : r = r'
    · subst hrr; cases hs : s.arrays[r]? <;> simp
    · simp [hrr, Ne.symm hrr]
  refine ⟨by simpa [Store.setElem] using h.arrays_size, h.maps_size, ?_, ?_, h.map⟩
  · intro r' t hr' w hw
    rw [hget] at hw
    split at hw
    · next heq =>
      subst heq
      cases hr.symm.trans hr'
      rw [Array.toList_setIfInBounds] at hw
      rcases List.mem_or_eq_of_mem_set hw with hw | rfl
      · exact h.array r' a hr w hw
      · exact hv
    · exact h.array r' t hr' w hw
  · intro r' t hr' hk
    rw [hget]
    split
    · next heq =>
      subst heq
      rw [h.empty r' t hr' hk]
      rfl
    · exact h.empty r' t hr' hk

theorem modifyMap (h : StoreTyped Θ s) {r : Nat} {f : Pairs Value → Pairs Value}
    (hf : ∀ e, Θ.maps[r]? = some e → ∀ k v, (f (s.map r)).get? k = some v → HasType Θ v e) :
    StoreTyped Θ (s.modifyMap r f) := by
  refine ⟨h.arrays_size, by simpa [Store.modifyMap] using h.maps_size, h.array, h.empty, ?_⟩
  intro r' t hr' k v hv
  simp only [Store.modifyMap, Store.map, Array.getElem?_modify] at hv
  by_cases hrr : r = r'
  · subst hrr
    cases hs : s.maps[r]? with
    | none =>
      obtain ⟨hlt, -⟩ := Array.getElem?_eq_some_iff.1 hr'
      rw [Array.getElem?_eq_none_iff, ← h.maps_size] at hs
      omega
    | some p =>
      refine hf t hr' k v ?_
      simpa [Store.map, hs] using hv
  · simp only [hrr, ↓reduceIte] at hv
    exact h.map r' t hr' k v hv

end StoreTyped

/-! ### Frames -/

/-- The variables of a block with their types. -/
abbrev Scoping := List (String × Ty)

/-- Declares a variable in a block. The anonymous variable is not kept. -/
def Scoping.declare (l : Scoping) (name : String) (ty : Ty) : Scoping :=
  if name = "_" then l else (name, ty) :: l

/-- A frame has the variables of its block, and no others but the anonymous one. -/
def FrameTyped (Θ : StoreTy) (f : Frame) (l : Scoping) : Prop :=
  ∀ name, name ≠ "_" → match l.lookup name with
    | some τ => ∃ v, f.get? name = some v ∧ HasType Θ v τ
    | none => f.get? name = none

/-- The globals that are set are of their types. -/
def GlobalsTyped (Θ : StoreTy) (f : Frame) (G : String → Option Ty) : Prop :=
  ∀ name v, f.get? name = some v → ∃ τ, G name = some τ ∧ HasType Θ v τ

/-- Frames have the variables `L` of the open blocks, innermost first, above the globals `G`. -/
structure FramesTyped (Θ : StoreTy) (f : Frames) (G : String → Option Ty) (L : List Scoping) :
    Prop where
  globals : GlobalsTyped Θ f.globals G
  locals : List.Forall₂ (FrameTyped Θ) f.locals L

/-- The type of a variable. -/
def varTy? (G : String → Option Ty) (L : List Scoping) (name : String) : Option Ty :=
  (L.findSome? (·.lookup name)).or (G name)

namespace Frame
variable {f : Frame} {name name' : String} {v : Value}

theorem get?_replace :
    (f.replace name v).get? name' =
      if name' = name then (f.get? name).map fun _ => v else f.get? name' := by
  induction f with
  | nil => simp [replace, get?]
  | cons p f ih =>
    obtain ⟨n, w⟩ := p
    simp only [get?] at ih ⊢
    rw [replace]
    by_cases hn : n = name
    · subst hn
      rw [if_pos rfl]
      by_cases hn' : name' = n
      · subst hn'; simp
      · have hn' : (name' == n) = false := beq_eq_false_iff_ne.2 hn'
        simp [List.lookup_cons, hn', beq_eq_false_iff_ne.1 hn']
    · rw [if_neg hn]
      have hn₁ : (name == n) = false := beq_eq_false_iff_ne.2 (Ne.symm hn)
      by_cases hn' : name' = n
      · subst hn'; simp [hn]
      · have hn' : (name' == n) = false := beq_eq_false_iff_ne.2 hn'
        simp [List.lookup_cons, hn', hn₁, ih]

theorem get?_insert :
    (f.insert name v).get? name' = if name' = name then some v else f.get? name' := by
  unfold insert
  split
  · next h =>
    rw [get?_replace]
    obtain ⟨w, hw⟩ := Option.isSome_iff_exists.1 h
    simp [hw]
  · simp only [get?, List.lookup_cons]
    by_cases hn : name' = name
    · simp [hn]
    · simp [beq_eq_false_iff_ne.2 hn, hn]

end Frame

section
variable {Θ Θ' : StoreTy} {f : Frame} {l : Scoping} {G : String → Option Ty} {L : List Scoping}
  {name : String} {v : Value} {τ : Ty} {fs : Frames}

theorem FrameTyped.mono (hle : Θ ≤ Θ') (h : FrameTyped Θ f l) : FrameTyped Θ' f l := by
  intro name hname
  have := h name hname
  split at this
  · obtain ⟨v, hv, ht⟩ := this
    exact ⟨v, hv, ht.mono hle⟩
  · exact this

theorem FrameTyped.nil : FrameTyped Θ [] [] := fun _ _ => rfl

theorem FrameTyped.insert (h : FrameTyped Θ f l) (hv : HasType Θ v τ) :
    FrameTyped Θ (f.insert name v) (l.declare name τ) := by
  intro name' hname'
  have := h name' hname'
  rw [Frame.get?_insert]
  unfold Scoping.declare
  by_cases hn' : name' = name
  · subst hn'
    simp [hname', hv]
  · rw [if_neg hn']
    by_cases hn : name = "_"
    · rw [if_pos hn]
      exact this
    · rw [if_neg hn, List.lookup_cons, beq_eq_false_iff_ne.2 hn']
      exact this

/-- A variable that is declared for the second time. -/
theorem FrameTyped.of_redeclared (h : FrameTyped Θ f ((l.declare name τ).declare name τ)) :
    FrameTyped Θ f (l.declare name τ) := by
  intro name' hname'
  have := h name' hname'
  unfold Scoping.declare at this ⊢
  by_cases hn : name = "_"
  · simpa [hn] using this
  · simp only [if_neg hn, List.lookup_cons] at this ⊢
    by_cases hn' : name' = name
    · simpa [hn'] using this
    · simpa [beq_eq_false_iff_ne.2 hn'] using this

theorem FrameTyped.replace (h : FrameTyped Θ f l) (hl : l.lookup name = some τ)
    (hv : HasType Θ v τ) : FrameTyped Θ (f.replace name v) l := by
  intro name' hname'
  have := h name' hname'
  rw [Frame.get?_replace]
  by_cases hn : name' = name
  · subst hn
    rw [hl] at this ⊢
    obtain ⟨w, hw, -⟩ := this
    exact ⟨v, by simp [hw], hv⟩
  · rw [if_neg hn]
    exact this

theorem GlobalsTyped.mono (hle : Θ ≤ Θ') (h : GlobalsTyped Θ f G) : GlobalsTyped Θ' f G := by
  intro name v hv
  obtain ⟨τ, hτ, ht⟩ := h name v hv
  exact ⟨τ, hτ, ht.mono hle⟩

theorem GlobalsTyped.insert (h : GlobalsTyped Θ f G) (hG : G name = some τ) (hv : HasType Θ v τ) :
    GlobalsTyped Θ (f.insert name v) G := by
  intro name' v' hv'
  rw [Frame.get?_insert] at hv'
  split at hv'
  · next hn => cases hv'; exact ⟨τ, hn ▸ hG, hv⟩
  · exact h name' v' hv'

theorem GlobalsTyped.replace (h : GlobalsTyped Θ f G) (hG : G name = some τ) (hv : HasType Θ v τ) :
    GlobalsTyped Θ (f.replace name v) G := by
  intro name' v' hv'
  rw [Frame.get?_replace] at hv'
  split at hv'
  · next hn =>
    obtain ⟨_, -, rfl⟩ := Option.map_eq_some_iff.1 hv'
    exact ⟨τ, hn ▸ hG, hv⟩
  · exact h name' v' hv'

namespace FramesTyped

theorem mono (hle : Θ ≤ Θ') (h : FramesTyped Θ fs G L) : FramesTyped Θ' fs G L :=
  ⟨h.globals.mono hle, .imp (fun _ _ => FrameTyped.mono hle) h.locals⟩

/-- The local frames have a variable if the scoping has it. -/
theorem findSome?_locals {ls : List Frame} (h : List.Forall₂ (FrameTyped Θ) ls L) (hname : name ≠ "_") :
    match L.findSome? (·.lookup name) with
    | some τ => ∃ v, ls.findSome? (·.get? name) = some v ∧ HasType Θ v τ
    | none => ls.findSome? (·.get? name) = none := by
  induction h with
  | nil => rfl
  | @cons f l ls L hf _ ih =>
    have := hf name hname
    simp only [List.findSome?_cons]
    cases hl : l.lookup name with
    | some τ =>
      rw [hl] at this
      obtain ⟨v, hv, ht⟩ := this
      simp only [hv]
      exact ⟨v, rfl, ht⟩
    | none =>
      rw [hl] at this
      simp only [this]
      exact ih

theorem get? (h : FramesTyped Θ fs G L) (hname : name ≠ "_") (hτ : varTy? G L name = some τ)
    (hv : fs.get? name = some v) : HasType Θ v τ := by
  have := findSome?_locals h.locals hname
  unfold varTy? at hτ
  unfold Frames.get? at hv
  cases hl : L.findSome? (·.lookup name) with
  | some τ' =>
    rw [hl] at this hτ
    obtain ⟨w, hw, ht⟩ := this
    rw [hw] at hv
    cases hv
    cases hτ
    exact ht
  | none =>
    rw [hl] at this hτ
    rw [this] at hv
    obtain ⟨τ', hτ', ht⟩ := h.globals name v hv
    cases hτ'.symm.trans hτ
    exact ht

theorem assignIn {ls ls' : List Frame} (h : List.Forall₂ (FrameTyped Θ) ls L) (hname : name ≠ "_")
    (ha : Frames.assignIn name v ls = some ls') :
    ∃ τ, L.findSome? (·.lookup name) = some τ ∧
      (HasType Θ v τ → List.Forall₂ (FrameTyped Θ) ls' L) := by
  induction h generalizing ls' with
  | nil => cases ha
  | @cons f l ls L hf hrest ih =>
    have := hf name hname
    rw [Frames.assignIn] at ha
    rw [List.findSome?_cons]
    cases hl : l.lookup name with
    | some τ =>
      rw [hl] at this
      obtain ⟨w, hw, -⟩ := this
      simp only [hw, Option.isSome_some, ↓reduceIte, Option.some.injEq] at ha
      subst ha
      exact ⟨τ, rfl, fun hv => .cons (hf.replace hl hv) hrest⟩
    | none =>
      rw [hl] at this
      simp only [this, Option.isSome_none, Bool.false_eq_true, ↓reduceIte] at ha
      obtain ⟨ls'', hls'', rfl⟩ := Option.map_eq_some_iff.1 ha
      obtain ⟨τ, hτ, hok⟩ := ih hls''
      exact ⟨τ, hτ, fun hv => .cons hf (hok hv)⟩

theorem assignIn_none {ls : List Frame} (h : List.Forall₂ (FrameTyped Θ) ls L) (hname : name ≠ "_")
    (ha : Frames.assignIn name v ls = none) : L.findSome? (·.lookup name) = none := by
  induction h with
  | nil => rfl
  | @cons f l ls L hf hrest ih =>
    have := hf name hname
    rw [Frames.assignIn] at ha
    rw [List.findSome?_cons]
    cases hl : l.lookup name with
    | some τ =>
      rw [hl] at this
      obtain ⟨w, hw, -⟩ := this
      simp [hw] at ha
    | none =>
      rw [hl] at this
      exact ih (by simpa [this] using ha)

theorem assign? (h : FramesTyped Θ fs G L) (hname : name ≠ "_") (hτ : varTy? G L name = some τ)
    (hv : HasType Θ v τ) {fs' : Frames} (ha : fs.assign? name v = some fs') :
    FramesTyped Θ fs' G L := by
  unfold Frames.assign? at ha
  unfold varTy? at hτ
  cases hin : Frames.assignIn name v fs.locals with
  | some ls =>
    rw [hin] at ha
    cases ha
    obtain ⟨τ', hτ', hok⟩ := assignIn h.locals hname hin
    rw [hτ'] at hτ
    cases hτ
    exact ⟨h.globals, hok hv⟩
  | none =>
    rw [hin] at ha
    rw [assignIn_none h.locals hname hin] at hτ
    simp only at ha
    split at ha
    · cases ha; exact ⟨h.globals.replace hτ hv, h.locals⟩
    · cases ha

/-- Declares a variable of the innermost block. -/
theorem insert {l : Scoping} (h : FramesTyped Θ fs G (l :: L)) (hv : HasType Θ v τ) :
    FramesTyped Θ (fs.insert name v) G (l.declare name τ :: L) := by
  have := h.locals
  unfold Frames.insert
  cases hl : fs.locals with
  | nil => rw [hl] at this; cases this
  | cons f ls =>
    rw [hl] at this
    cases this with
    | cons hf hls => exact ⟨h.globals, .cons (hf.insert hv) hls⟩

/-- Declares a global variable where no block is open. -/
theorem insert_global (h : FramesTyped Θ fs G []) (hG : G name = some τ) (hv : HasType Θ v τ) :
    FramesTyped Θ (fs.insert name v) G [] := by
  have := h.locals
  unfold Frames.insert
  cases hl : fs.locals with
  | nil =>
    rw [hl] at this
    exact ⟨h.globals.insert hG hv, by simp⟩
  | cons f ls => rw [hl] at this; cases this

theorem nest (h : FramesTyped Θ fs G L) : FramesTyped Θ fs.nest G ([] :: L) :=
  ⟨h.globals, .cons .nil h.locals⟩

theorem unnest {l : Scoping} (h : FramesTyped Θ fs G (l :: L)) : FramesTyped Θ fs.unnest G L := by
  refine ⟨h.globals, ?_⟩
  have := h.locals
  unfold Frames.unnest
  cases hl : fs.locals with
  | nil => rw [hl] at this; cases this
  | cons f ls =>
    rw [hl] at this
    cases this with
    | cons _ h => exact h

end FramesTyped

end

end TinyScript
