import TinyScript.Proofs.Pairs
import TinyScript.Proofs.Typing.Judgement
import TinyScript.Proofs.Typing.Safety

/-!
# Operators are safe

Each operation on values has a result of the type that its rule in the judgement gives, if its
operands are of the types that the rule asks for.
-/

namespace TinyScript

section
variable {Θ : StoreTy} {G : Vars} {L : List Scoping} {l r t τ : Ty} {v w : Value} {ref : Nat} {x : Float}
  {s : Store Value}

/-! ### Storage -/

/-- An element of an array is of the array's element type. -/
theorem StoreTyped.elemAt (hs : StoreTyped Θ s) (h : HasType Θ (.array ref t) τ)
    (hv : s.elemAt ref x = .ok v) : HasType Θ v τ.elem := by
  obtain ⟨a, ha, hsame⟩ := h.array_storage
  unfold Store.elemAt at hv
  cases hp : s.placeOf ref x with
  | error p => rw [hp] at hv; cases hv
  | ok i =>
    rw [hp] at hv
    simp only [bind, Except.bind] at hv
    split at hv
    · next u hu =>
      cases hv
      exact (hs.array ref a ha v (Array.mem_of_getElem? hu).val).of_same hsame
    · cases hv

/-- The value of a key is of the map's element type. -/
theorem StoreTyped.fieldOf (hs : StoreTyped Θ s) (h : HasType Θ (.map ref t) τ) {key : String}
    (hv : s.fieldOf ref key = .ok v) : HasType Θ v τ.elem := by
  obtain ⟨e, he, hsame⟩ := h.map_storage
  unfold Store.fieldOf at hv
  split at hv
  · next u hu =>
    cases hv
    exact (hs.map ref e he key v hu).of_same hsame
  · cases hv

theorem SafeIn.setElem (h : HasType Θ (.array ref t) τ) (hv : HasType Θ v τ.elem) :
    Safe Θ G L (Eval.setElem ref x v) fun _ _ => True := by
  obtain ⟨a, ha, hsame⟩ := h.array_storage
  refine SafeIn.store.andThen fun Θ' s hle _ => ?_
  refine (SafeIn.orPanic (Q := fun _ _ => True) fun _ _ => trivial).andThen fun Θ'' i hle' _ => ?_
  have hle := StoreTy.le_trans hle hle'
  exact SafeIn.modifyStore fun s hs =>
    hs.setElem (hle.arrays ref a ha) ((hv.mono hle).of_same (Ty.same_symm hsame))

theorem SafeIn.setField (h : HasType Θ (.map ref t) τ) {key : String} (hv : HasType Θ v τ.elem) :
    Safe Θ G L (Eval.setField ref key v) fun _ _ => True := by
  obtain ⟨e, he, hsame⟩ := h.map_storage
  refine SafeIn.modifyStore fun s hs => hs.modifyMap fun e' he' k u hu => ?_
  cases he.symm.trans he'
  rw [Pairs.get?_insert] at hu
  split at hu
  · cases hu; exact hv.of_same (Ty.same_symm hsame)
  · exact hs.map ref e he k u hu

/-! ### Operators -/

/-- The sum of two arrays. -/
theorem SafeIn.concat {a b : Nat} {tyA tyB : Ty} (hv : HasType Θ (.array a tyA) l)
    (hw : HasType Θ (.array b tyB) r)
    (hfit : l.isEmpty ∧ t.same r ∨ l.isEmpty = false ∧ t.same l ∧
      (t.same r ∨ r.isEmpty ∨ (Value.array b tyB).IsEmptyArray Θ)) :
    Safe Θ G L (BinaryOp.add.eval (.array a tyA) (.array b tyB)) fun Θ' u => HasType Θ' u t ∧
      ((Value.array a tyA).IsEmptyArray Θ → (Value.array b tyB).IsEmptyArray Θ →
        u.IsEmptyArray Θ') := by
  obtain ⟨α, hα, hA⟩ := hv.wellFormed
  obtain ⟨β, hβ, hB⟩ := hw.wellFormed
  have hlempty : l.isEmpty = (α.elem.kind == .none) := Ty.isEmpty_of_same (Ty.same_trans hv.same hA)
  have hrempty : r.isEmpty = (β.elem.kind == .none) := Ty.isEmpty_of_same (Ty.same_trans hw.same hB)
  have hempty {c : Nat} {u : Ty} {γ : ArrayTy} (hγ : Θ.arrays[c]? = some γ)
      (h : (Value.array c u).IsEmptyArray Θ) : γ.isEmpty := by
    obtain ⟨_, _, γ', ⟨⟩, hγ', h⟩ := h
    cases hγ.symm.trans hγ'
    exact h
  refine SafeIn.store.andThen fun Θ' s hle ⟨hΘ, hs⟩ => ?_
  subst hΘ
  rcases hfit with ⟨hl, ht⟩ | ⟨hl, ht, hr⟩
  · -- nothing comes from the left
    have hnone : s.array a = #[] := by
      rw [hlempty, beq_iff_eq] at hl
      exact hs.empty a α hα (α.isEmpty_of_none hl)
    have htag : tyA.isEmpty := (Ty.isEmpty_of_same hv.same).symm.trans hl
    rw [if_pos htag, hnone, Array.empty_append]
    refine (SafeIn.newArray hB (hs.array b β hβ) (hs.empty b β hβ)).weaken fun _ u _ hu => ?_
    exact ⟨hu.1.of_same (Ty.same_trans ht hw.same), fun _ hb => hu.2 (hempty hβ hb)⟩
  · have htag : tyA.isEmpty = false := (Ty.isEmpty_of_same hv.same).symm.trans hl
    have hne : α.elem.kind ≠ .none := by
      rw [hlempty] at hl
      exact beq_eq_false_iff_ne.1 hl
    have helem : ∀ u ∈ (s.array b).toList, HasType Θ' u α.elem := by
      intro u hu
      rcases hr with hr | hr | hr
      · have hsame : (Ty.array α.elem).same (.array β.elem) :=
          Ty.same_trans (Ty.same_symm (Ty.same_trans (Ty.same_trans ht hv.same) hA))
            (Ty.same_trans (Ty.same_trans hr hw.same) hB)
        exact (hs.array b β hβ u hu).of_same (Ty.elem_same_of_same hsame)
      · rw [hrempty, beq_iff_eq] at hr
        rw [hs.empty b β hβ (β.isEmpty_of_none hr)] at hu
        cases hu
      · rw [hs.empty b β hβ (hempty hβ hr)] at hu
        cases hu
    rw [if_neg (by simp [htag])]
    refine (SafeIn.newArray (a := ⟨α.elem, α.isEmpty && β.isEmpty, fun h => absurd h hne⟩) hA ?_ ?_).weaken
      fun _ u _ hu => ⟨hu.1.of_same (Ty.same_trans ht hv.same), fun ha hb => hu.2 ?_⟩
    · intro u hu
      rw [Array.toList_append, List.mem_append] at hu
      exact hu.elim (hs.array a α hα u) (helem u)
    · intro h
      rw [Bool.and_eq_true] at h
      rw [hs.empty a α hα h.1, hs.empty b β hβ h.2, Array.append_empty]
    · rw [Bool.and_eq_true]
      exact ⟨hempty hα ha, hempty hβ hb⟩

/-- Operators other than the sum of arrays. -/
theorem BinaryOp.safe_eval {op : BinaryOp} (h : op.Takes l r t) (hv : HasType Θ v l)
    (hw : HasType Θ w r) (hop : op = .add → l.kind ≠ .array) :
    Safe Θ G L (op.eval v w) fun Θ' u => HasType Θ' u t := by
  cases op with
  | eq | notEq =>
    exact SafeIn.store.andThen fun _ s _ _ => (SafeIn.answered (v.equals s w)).andThen
      fun _ _ _ _ => SafeIn.pure (.bool h _)
  | sub | mul | div | rem =>
    obtain ⟨hl, hr, ht⟩ := h
    obtain ⟨x, rfl⟩ := hv.num_inv (Ty.kind_eq_of_same hl)
    obtain ⟨y, rfl⟩ := hw.num_inv (Ty.kind_eq_of_same hr)
    exact SafeIn.pure (.num ht _)
  | lt | gt | ltEq | gtEq =>
    obtain ⟨⟨hl, hr⟩ | ⟨hl, hr⟩, ht⟩ := h
    · obtain ⟨x, rfl⟩ := hv.num_inv (Ty.kind_eq_of_same hl)
      obtain ⟨y, rfl⟩ := hw.num_inv (Ty.kind_eq_of_same hr)
      exact SafeIn.pure (.bool ht _)
    · obtain ⟨x, rfl⟩ := hv.str_inv (Ty.kind_eq_of_same hl)
      obtain ⟨y, rfl⟩ := hw.str_inv (Ty.kind_eq_of_same hr)
      exact SafeIn.pure (.bool ht _)
  | and | or =>
    obtain ⟨hl, hr, ht⟩ := h
    obtain ⟨x, rfl⟩ := hv.bool_inv (Ty.kind_eq_of_same hl)
    obtain ⟨y, rfl⟩ := hw.bool_inv (Ty.kind_eq_of_same hr)
    exact SafeIn.pure (.bool ht _)
  | add =>
    obtain ⟨hl, hr, ht⟩ | ⟨hl, hr, ht⟩ | ⟨hl, -, -⟩ := h
    · obtain ⟨x, rfl⟩ := hv.num_inv (Ty.kind_eq_of_same hl)
      obtain ⟨y, rfl⟩ := hw.num_inv (Ty.kind_eq_of_same hr)
      exact SafeIn.pure (.num ht _)
    · obtain ⟨x, rfl⟩ := hv.str_inv (Ty.kind_eq_of_same hl)
      obtain ⟨y, rfl⟩ := hw.str_inv (Ty.kind_eq_of_same hr)
      exact SafeIn.pure (.str ht _)
    · exact absurd hl (hop rfl)

theorem UnaryOp.safe_eval {op : UnaryOp} (h : op.Takes t) (hv : HasType Θ v t) :
    Safe Θ G L (op.eval v) fun Θ' u => HasType Θ' u t := by
  cases op with
  | neg =>
    obtain ⟨x, rfl⟩ := hv.num_inv (Ty.kind_eq_of_same h)
    exact SafeIn.pure (.num h _)
  | not =>
    obtain ⟨b, rfl⟩ := hv.bool_inv (Ty.kind_eq_of_same h)
    exact SafeIn.pure (.bool h _)

/-! ### Elements, slices and fields -/

/-- A part of a text, if there is one. -/
theorem SafeIn.orPanic_str (ht : t.same .string) (part : Except Panic String) :
    Safe Θ G L (Eval.orPanic (part.map .str)) fun Θ' u => HasType Θ' u t := by
  cases part with
  | error p => exact SafeIn.fail rfl
  | ok s => exact SafeIn.pure (.str ht s)

theorem SafeIn.at (h : l.IndexedBy r t) (hv : HasType Θ v l) (hw : HasType Θ w r) :
    Safe Θ G L (v.at w) fun Θ' u => HasType Θ' u t := by
  obtain ⟨hk, hr, ht⟩ | ⟨hk, hr, ht⟩ | ⟨hk, hr, ht⟩ := h
  · obtain ⟨ref, ty, rfl⟩ := hv.array_inv hk
    obtain ⟨x, rfl⟩ := hw.num_inv (Ty.kind_eq_of_same hr)
    refine SafeIn.store.andThen fun Θ' s _ ⟨hΘ, hs⟩ => SafeIn.orPanic fun u hu => ?_
    subst hΘ
    exact (hs.elemAt hv hu).of_same ht
  · obtain ⟨ref, ty, rfl⟩ := hv.map_inv hk
    obtain ⟨k, rfl⟩ := hw.str_inv (Ty.kind_eq_of_same hr)
    refine SafeIn.store.andThen fun Θ' s _ ⟨hΘ, hs⟩ => SafeIn.orPanic fun u hu => ?_
    subst hΘ
    exact (hs.fieldOf hv hu).of_same ht
  · obtain ⟨s, rfl⟩ := hv.str_inv hk
    obtain ⟨x, rfl⟩ := hw.num_inv (Ty.kind_eq_of_same hr)
    exact SafeIn.orPanic_str ht _

theorem SafeIn.field (hk : l.kind = .map) (ht : t.same l.elem) (hv : HasType Θ v l) (key : String) :
    Safe Θ G L (v.field key) fun Θ' u => HasType Θ' u t := by
  obtain ⟨ref, ty, rfl⟩ := hv.map_inv hk
  refine SafeIn.store.andThen fun Θ' s _ ⟨hΘ, hs⟩ => SafeIn.orPanic fun u hu => ?_
  subst hΘ
  exact (hs.fieldOf hv hu).of_same ht

theorem SafeIn.slice (hk : l.kind = .array ∨ l.kind = .string) (ht : t.same l) (hv : HasType Θ v l)
    (start stop : Option Float) : Safe Θ G L (v.slice start stop) fun Θ' u => HasType Θ' u t := by
  rcases hk with hk | hk
  · obtain ⟨ref, ty, rfl⟩ := hv.array_inv hk
    obtain ⟨a, ha, hty⟩ := hv.wellFormed
    refine SafeIn.store.andThen fun Θ' s _ ⟨hΘ, hs⟩ => ?_
    subst hΘ
    have hpart : Safe Θ' G L (Eval.orPanic (s.sliceOf ref start stop)) fun Θ'' elems =>
        (∀ u ∈ elems.toList, HasType Θ'' u a.elem) ∧ (a.isEmpty → elems = #[]) := by
      refine SafeIn.orPanic fun elems helems => ?_
      obtain ⟨i, j, rfl⟩ : ∃ i j, elems = (s.array ref).extract i j := by
        simp only [Store.sliceOf] at helems
        cases hij : Index.slice start stop (s.array ref).size with
        | error p => rw [hij] at helems; cases helems
        | ok ij => rw [hij] at helems; cases helems; exact ⟨_, _, rfl⟩
      refine ⟨fun u hu => hs.array ref a ha u ?_, fun h => by rw [hs.empty ref a ha h]; simp⟩
      rw [Array.toList_extract, List.extract_eq_take_drop] at hu
      exact List.mem_of_mem_drop (List.mem_of_mem_take hu)
    refine hpart.andThen fun Θ'' elems hle ⟨hty', hempty⟩ => ?_
    exact (SafeIn.newArray hty hty' hempty).weaken fun _ u _ hu => hu.1.of_same (Ty.same_trans ht hv.same)
  · obtain ⟨s, rfl⟩ := hv.str_inv hk
    exact SafeIn.orPanic_str (Ty.same_trans ht hv.same) _

theorem SafeIn.asserted (hl : l.same .any) (ht : t.settled) (hv : HasType Θ v l) :
    Safe Θ G L (v.asserted t) fun Θ' u => HasType Θ' u t := by
  obtain ⟨u, rfl⟩ := hv.any_inv (Ty.kind_eq_of_same hl)
  simp only [Value.asserted]
  split
  · next hfits => exact SafeIn.pure (hv.of_fits ht hfits)
  · exact SafeIn.fail rfl

theorem SafeIn.number (hl : l.same .num) (hv : HasType Θ v l) :
    Safe Θ G L v.number fun _ _ => True := by
  obtain ⟨x, rfl⟩ := hv.num_inv (Ty.kind_eq_of_same hl)
  exact SafeIn.pure trivial

end

end TinyScript
