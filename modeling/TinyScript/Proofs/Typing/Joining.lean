import TinyScript.Proofs.Typing.Types

/-!
# The element type of a literal

`Ty.combine` folds `Ty.join` over the types of the elements. Between types that are the same up to their
marks `join` keeps one with its marks, so that the order of the elements shows in the marks, and through
them in the element type (`markedNums_combine`). Where marks agree (`Ty.Joinable`) it is idempotent,
commutative and associative, and the order of the elements does not matter (`combine_perm`).
-/

namespace TinyScript.Ty

/-- Whether a type is made as types are: arrays and maps alone have elements, and what has none cannot be
marked. -/
def wellFormed : Ty → Bool
  | leaf _ f => !f
  | of k _ e => k.isComposite && e.wellFormed

/-- Whether the marks of two types agree: two arrays, or two maps, are equal with their marks, or none of
them is marked and the marks of their elements agree. -/
def marksAgree : Ty → Ty → Bool
  | leaf .., leaf .. => true
  | leaf k _, of l g _ => k != l || !g
  | of k f _, leaf l _ => k != l || !f
  | of k f s, of l g t => k != l || of k f s == of l g t || (!f && !g && s.marksAgree t)

variable {a b c : Ty} {k : Kind}

theorem wellFormed_elem (ha : a.wellFormed) : a.elem.wellFormed := by
  cases a with
  | leaf => rfl
  | of k f e => exact (Bool.and_eq_true _ _ ▸ ha).2

/-- A type of a kind without elements is the one of its kind. -/
theorem eq_leaf (ha : a.wellFormed) (hk : a.kind.isComposite = false) : a = leaf a.kind false := by
  cases a with
  | leaf k f => simp_all [wellFormed, kind]
  | of k f e => simp_all [wellFormed, kind]

/-! ### Marks that agree -/

@[simp] theorem marksAgree_refl (a : Ty) : a.marksAgree a := by
  cases a <;> simp [marksAgree]

theorem marksAgree_comm (a b : Ty) : a.marksAgree b = b.marksAgree a := by
  induction a generalizing b with
  | leaf k f => cases b <;> simp [marksAgree, bne_comm]
  | of k f s ih =>
    cases b with
    | leaf l g => simp [marksAgree, bne_comm]
    | of l g t =>
      rw [marksAgree, marksAgree, ih t, bne_comm, Bool.beq_comm (a := of k f s), Bool.and_comm (!f)]

theorem marksAgree_of_kind_ne (h : a.kind ≠ b.kind) : a.marksAgree b := by
  cases a <;> cases b <;> simp_all [marksAgree, kind]

theorem marksAgree_of_elem (hb : b.isFixed = false) (h : a.marksAgree b.elem) :
    (of k false a).marksAgree b := by
  cases b <;> simp_all [marksAgree, isFixed, elem]

/-- Two types that are made as types are, and whose marks agree. -/
structure Joinable (a b : Ty) : Prop where
  left : a.wellFormed
  right : b.wellFormed
  marks : a.marksAgree b

instance : Decidable (Joinable a b) :=
  decidable_of_iff (a.wellFormed ∧ b.wellFormed ∧ a.marksAgree b)
    ⟨fun h => ⟨h.1, h.2.1, h.2.2⟩, fun h => ⟨h.left, h.right, h.marks⟩⟩

namespace Joinable

theorem refl (ha : a.wellFormed) : Joinable a a :=
  ⟨ha, ha, marksAgree_refl a⟩

theorem symm (h : Joinable a b) : Joinable b a :=
  ⟨h.right, h.left, marksAgree_comm a b ▸ h.marks⟩

/-- A type of a kind without elements goes together with every type. -/
theorem leaf_left (hk : k.isComposite = false) (hb : b.wellFormed) : Joinable (leaf k false) b := by
  refine ⟨rfl, hb, ?_⟩
  by_cases hkb : b.kind = k
  · rw [eq_leaf hb (hkb ▸ hk)]
    rfl
  · exact marksAgree_of_kind_ne (Ne.symm hkb)

/-- Types of one kind are equal, or they have no marks and their elements go together as well. -/
theorem cases (h : Joinable a b) (hk : a.kind = b.kind) :
    a = b ∨ a.isFixed = false ∧ b.isFixed = false ∧ Joinable a.elem b.elem := by
  obtain ⟨ha, hb, h⟩ := h
  have hea := wellFormed_elem ha
  have heb := wellFormed_elem hb
  match a, b with
  | leaf k f, leaf l g =>
    obtain rfl : k = l := hk
    simp only [wellFormed, Bool.not_eq_true'] at ha hb
    exact .inl (by rw [ha, hb])
  | leaf k f, of l g t =>
    obtain rfl : k = l := hk
    simp only [wellFormed, Bool.not_eq_true'] at ha
    exact .inr ⟨ha, by simpa [marksAgree, isFixed] using h, leaf_left rfl heb⟩
  | of k f s, leaf l g =>
    obtain rfl : k = l := hk
    simp only [wellFormed, Bool.not_eq_true'] at hb
    exact .inr ⟨by simpa [marksAgree, isFixed] using h, hb, (leaf_left rfl hea).symm⟩
  | of k f s, of l g t =>
    obtain rfl : k = l := hk
    simp only [marksAgree, bne_self_eq_false, Bool.false_or, Bool.or_eq_true, beq_iff_eq, Bool.and_eq_true,
      Bool.not_eq_true'] at h
    exact h.imp id fun h => ⟨h.1.1, h.1.2, hea, heb, h.2⟩

theorem elem (h : Joinable a b) (hk : a.kind = b.kind) : Joinable a.elem b.elem := by
  rcases h.cases hk with rfl | ⟨-, -, he⟩
  · exact .refl (wellFormed_elem h.left)
  · exact he

/-- Types that differ in marks alone do not go together. -/
theorem eq_of_same (h : Joinable a b) (hs : a.same b) : a = b := by
  induction a generalizing b with
  | leaf k f =>
    obtain ⟨ha, hb, -⟩ := h
    cases b with
    | leaf l g => simp_all [same, wellFormed]
    | of l g t => cases hs
  | of k f s ih =>
    cases b with
    | leaf l g => cases hs
    | of l g t =>
      simp only [same, Bool.and_eq_true, beq_iff_eq] at hs
      rcases h.cases hs.1 with h | ⟨hf, hg, h⟩
      · exact h
      · simp only [isFixed] at hf hg
        have ht : s = t := ih h hs.2
        rw [hs.1, hf, hg, ht]

theorem isComposite (h : Joinable a b) (hne : a ≠ b) (hk : a.kind = b.kind) : b.isComposite := by
  cases hc : b.kind.isComposite with
  | true => exact hc
  | false => exact absurd (by rw [eq_leaf h.left (hk ▸ hc), eq_leaf h.right hc, hk]) hne

theorem eq_of_isEmpty (h : Joinable a b) (hk : a.kind = b.kind) (ha : a.isEmpty) (hb : b.isEmpty) : a = b := by
  have hnone {t : Ty} (ht : t.wellFormed) (he : t.isEmpty) : t.elem = none := by
    have hk := kind_elem_of_isEmpty he
    rw [eq_leaf (wellFormed_elem ht) (by rw [hk]; rfl), hk]
    rfl
  refine h.eq_of_same ?_
  have helem : a.elem.same b.elem := by rw [hnone h.left ha, hnone h.right hb]; rfl
  cases a with
  | leaf => cases ha
  | of k f s =>
    cases b with
    | leaf => cases hb
    | of l g t =>
      simp only [kind] at hk
      simp only [Ty.elem] at helem
      simp [same, helem, hk]

end Joinable

/-! ### One level of a join -/

theorem mix_self (a below : Ty) : mix a a below = a := by
  rw [mix, if_pos (same_refl a)]

/-- Types of different kinds have `any` in common only. -/
theorem mix_of_kind_ne (h : a.kind ≠ b.kind) (below : Ty) : mix a b below = any := by
  have hs : ¬ a.same b := fun hs => h (kind_eq_of_same hs)
  have hk : ¬ (b.isComposite && a.kind == b.kind) = true := by simp [h]
  rw [mix, if_neg hs, if_neg hk, ite_self]

theorem mix_of_ne (h : Joinable a b) (hne : a ≠ b) (hk : a.kind = b.kind) (below : Ty) :
    mix a b below = if b.isEmpty then a else if a.isEmpty then b else of a.kind false below := by
  have hs : ¬ a.same b := fun hs => hne (h.eq_of_same hs)
  obtain ⟨hf, hg, -⟩ := (h.cases hk).resolve_left hne
  have hc : (b.isComposite && a.kind == b.kind) = true := by simp [h.isComposite hne hk, hk]
  rw [mix, if_neg hs, hf, hg, if_neg (by decide), if_pos hc, hk]

theorem mix_comm (h : Joinable a b) (below : Ty) : mix a b below = mix b a below := by
  by_cases hne : a = b
  · rw [hne]
  by_cases hk : a.kind = b.kind
  · rw [mix_of_ne h hne hk, mix_of_ne h.symm (Ne.symm hne) hk.symm, hk]
    by_cases ha : a.isEmpty <;> by_cases hb : b.isEmpty <;> simp only [ha, hb, ↓reduceIte]
    · exact h.eq_of_isEmpty hk ha hb
    · rfl
    · rfl
    · rfl
  · rw [mix_of_kind_ne hk, mix_of_kind_ne (Ne.symm hk)]

/-! ### Joins -/

/-- To swap the operands is to swap the order of the join. -/
theorem joinAt_not (swapped : Bool) (a b : Ty) : joinAt (!swapped) a b = joinAt swapped b a := by
  induction a generalizing swapped b with
  | leaf k f => cases b <;> cases swapped <;> rfl
  | of k f s ih =>
    cases b with
    | leaf l g => cases swapped <;> rfl
    | of l g t =>
      have ht := ih (!swapped) t
      rw [Bool.not_not] at ht
      cases swapped <;>
        simp only [joinAt, ht, Bool.not_false, Bool.not_true, ↓reduceIte, Bool.false_eq_true]

theorem joinAt_of_kind_ne (swapped : Bool) (h : a.kind ≠ b.kind) : joinAt swapped a b = any := by
  cases a <;> cases b <;> cases swapped <;> simp only [joinAt, ↓reduceIte, Bool.false_eq_true] <;>
    first | exact mix_of_kind_ne h _ | exact mix_of_kind_ne h.symm _

/-- The order of a join does not matter where marks agree. -/
theorem joinAt_eq_join (swapped : Bool) (h : Joinable a b) : joinAt swapped a b = join a b := by
  cases swapped with
  | false => rfl
  | true =>
    rw [join]
    induction a generalizing b with
    | leaf k f => cases b <;> exact mix_comm h.symm _
    | of k f s ih =>
      cases b with
      | leaf l g => exact mix_comm h.symm _
      | of l g t =>
        simp only [joinAt, Bool.not_true, Bool.not_false, ↓reduceIte, Bool.false_eq_true]
        by_cases hk : (of k f s).kind = (of l g t).kind
        · have ht : joinAt true s t = joinAt false s t := ih (h.elem hk)
          rw [ht]
          exact mix_comm h.symm _
        · rw [mix_of_kind_ne hk, mix_of_kind_ne (Ne.symm hk)]

theorem join_comm (h : Joinable a b) : join a b = join b a := by
  rw [← joinAt_eq_join true h]
  exact joinAt_not false a b

@[simp] theorem join_self (a : Ty) : join a a = a := by
  cases a <;> exact mix_self _ _

theorem join_of_kind_ne (h : a.kind ≠ b.kind) : join a b = any :=
  joinAt_of_kind_ne false h

/-- An element of type `any` makes it `any`. -/
theorem any_join (hb : b.wellFormed) : join any b = any := by
  by_cases hk : b.kind = .any
  · rw [eq_leaf hb (by rw [hk]; rfl), hk]
    rfl
  · exact join_of_kind_ne (Ne.symm hk)

theorem join_any (ha : a.wellFormed) : join a any = any := by
  have h : Joinable any a := .leaf_left rfl ha
  rw [join_comm h.symm, any_join ha]

/-- Different arrays, or different maps, have an element type in common. -/
theorem join_of_ne (h : Joinable a b) (hne : a ≠ b) (hk : a.kind = b.kind) : join a b =
    if b.isEmpty then a else if a.isEmpty then b else of a.kind false (join a.elem b.elem) := by
  have hmix (below : Ty) (hbelow : ¬ a.isEmpty → ¬ b.isEmpty → below = join a.elem b.elem) :
      mix a b below = if b.isEmpty then a else if a.isEmpty then b else
        of a.kind false (join a.elem b.elem) := by
    rw [mix_of_ne h hne hk]
    by_cases hb : b.isEmpty
    · rw [if_pos hb, if_pos hb]
    by_cases ha : a.isEmpty
    · rw [if_pos ha, if_pos ha]
    · rw [hbelow ha hb]
  have hnone {e : Ty} {k : Kind} {f : Bool} (ht : (of k f e).wellFormed) (he : ¬ (of k f e).isEmpty) :
      e.kind ≠ none.kind := fun hk => he (by simp_all [wellFormed, isEmpty, none, kind])
  cases a with
  | leaf k f =>
    cases b with
    | leaf l g => exact absurd (h.eq_of_same (beq_iff_eq.2 hk)) hne
    | of l g t => exact hmix any fun _ hb => (join_of_kind_ne (hnone h.right hb).symm).symm
  | of k f s =>
    cases b with
    | leaf l g => exact hmix any fun ha _ => (join_of_kind_ne (hnone h.left ha)).symm
    | of l g t => exact hmix _ fun _ _ => joinAt_eq_join true (h.elem hk)

/-- What holds of two equal types, of two types of different kinds, of an empty literal and another one of its
kind, and goes up from elements, holds of every join. -/
theorem join_induction {motive : Ty → Ty → Ty → Prop} (self : ∀ a, a.wellFormed → motive a a a)
    (apart : ∀ a b, Joinable a b → a.kind ≠ b.kind → motive a b any)
    (left : ∀ a b, Joinable a b → a.kind = b.kind → b.isEmpty → motive a b a)
    (right : ∀ a b, Joinable a b → a.kind = b.kind → a.isEmpty → motive a b b)
    (elems : ∀ a b, Joinable a b → a.kind = b.kind → a ≠ b → ¬ a.isEmpty → ¬ b.isEmpty →
      motive a.elem b.elem (join a.elem b.elem) → motive a b (of a.kind false (join a.elem b.elem)))
    (h : Joinable a b) : motive a b (join a b) := by
  have hstep {a b : Ty} (h : Joinable a b)
      (ih : a.kind = b.kind → motive a.elem b.elem (join a.elem b.elem)) : motive a b (join a b) := by
    by_cases hne : a = b
    · subst hne
      rw [join_self]
      exact self a h.left
    by_cases hk : a.kind = b.kind
    · rw [join_of_ne h hne hk]
      by_cases hb : b.isEmpty
      · rw [if_pos hb]
        exact left a b h hk hb
      by_cases ha : a.isEmpty
      · rw [if_neg hb, if_pos ha]
        exact right a b h hk ha
      · rw [if_neg hb, if_neg ha]
        exact elems a b h hk hne ha hb (ih hk)
    · rw [join_of_kind_ne hk]
      exact apart a b h hk
  induction a generalizing b with
  | leaf k f =>
    refine hstep h fun hk => ?_
    -- a leaf has no elements: there it is `none` that is joined
    have hb := (h.elem hk).right
    by_cases hn : b.elem.kind = .none
    · have hb : b.elem = none := by rw [eq_leaf hb (by rw [hn]; rfl), hn]; rfl
      rw [hb]
      exact self none rfl
    · rw [elem, join_of_kind_ne (Ne.symm hn)]
      exact apart none b.elem (.leaf_left rfl hb) (Ne.symm hn)
  | of k f s ih => exact hstep h fun hk => ih (h.elem hk)

theorem wellFormed_join (h : Joinable a b) : (join a b).wellFormed := by
  refine join_induction (motive := fun _ _ j => j.wellFormed) (fun _ ha => ha) (fun _ _ _ _ => rfl)
    (fun _ _ h _ _ => h.left) (fun _ _ h _ _ => h.right) (fun a b h hk hne _ _ ih => ?_) h
  have hc : a.kind.isComposite := hk ▸ h.isComposite hne hk
  simp [wellFormed, hc, ih]

theorem kind_join (h : Joinable a b) (hk : a.kind = b.kind) : (join a b).kind = a.kind := by
  refine join_induction (motive := fun a b j => a.kind = b.kind → j.kind = a.kind) (fun _ _ _ => rfl)
    (fun _ _ _ hne hk => absurd hk hne) (fun _ _ _ _ _ _ => rfl) (fun _ _ _ hk _ _ => hk.symm)
    (fun _ _ _ _ _ _ _ _ _ => rfl) h hk

/-- A join goes together with what both of its operands go together with. -/
theorem Joinable.join (hab : Joinable a b) (hac : Joinable a c) (hbc : Joinable b c) :
    Joinable (a.join b) c := by
  refine ⟨wellFormed_join hab, hac.right, ?_⟩
  refine join_induction (motive := fun a b j => ∀ c, Joinable a c → Joinable b c → j.marksAgree c)
    (fun _ _ _ hac _ => hac.marks) (fun _ _ _ _ _ hac _ => (leaf_left rfl hac.right).marks)
    (fun _ _ _ _ _ _ hac _ => hac.marks) (fun _ _ _ _ _ _ _ hbc => hbc.marks) ?_ hab c hac hbc
  intro a b h hk hne _ _ ih c hac hbc
  by_cases hkc : a.kind = c.kind
  · have hc : c.isFixed = false := by
      rcases hac.cases hkc with rfl | ⟨-, hc, -⟩
      · exact ((h.cases hk).resolve_left hne).1
      · exact hc
    exact marksAgree_of_elem hc (ih c.elem (hac.elem hkc) (hbc.elem (hk.symm.trans hkc)))
  · exact marksAgree_of_kind_ne hkc

/-- Different types that are not empty do not both lack elements. -/
theorem Joinable.elem_ne_none (h : Joinable a b) (hk : a.kind = b.kind) (hne : a ≠ b) (ha : ¬ a.isEmpty)
    (hb : ¬ b.isEmpty) : a.elem.kind ≠ .none ∨ b.elem.kind ≠ .none := by
  have hof {t : Ty} (ht : t.wellFormed) (he : ¬ t.isEmpty) (hn : t.elem.kind = .none) :
      t = leaf t.kind false := by
    cases t with
    | leaf k f => simp_all [wellFormed, kind]
    | of k f e =>
      simp only [wellFormed, Bool.and_eq_true] at ht
      have hn : e.kind = .none := hn
      exact absurd (by simp [isEmpty, ht.1, hn]) he
  refine Decidable.or_iff_not_imp_left.2 fun hna hnb => hne ?_
  rw [hof h.left ha (Decidable.not_not.1 hna), hof h.right hb hnb, hk]

theorem kind_join_ne_none (h : Joinable a b) (hn : a.kind ≠ .none ∨ b.kind ≠ .none) :
    (join a b).kind ≠ .none := by
  by_cases hk : a.kind = b.kind
  · rw [kind_join h hk]
    exact hn.elim id fun hb => hk ▸ hb
  · rw [join_of_kind_ne hk]
    exact nofun

/-- To join elements is to join the arrays, whatever the common element type came from. -/
theorem of_join (h : Joinable (of k false a) b) (hk : k = b.kind) (ha : a.kind ≠ .none) (hb : ¬ b.isEmpty) :
    join (of k false a) b = of k false (join a b.elem) := by
  by_cases hne : of k false a = b
  · subst hne
    rw [join_self, elem, join_self]
  · have hea : ¬ (of k false a).isEmpty := fun he => ha (kind_elem_of_isEmpty he)
    rw [join_of_ne h hne hk, if_neg hb, if_neg hea]
    rfl

theorem join_of (h : Joinable a (of k false b)) (hk : a.kind = k) (hb : b.kind ≠ .none) (ha : ¬ a.isEmpty) :
    join a (of k false b) = of k false (join a.elem b) := by
  have he : Joinable a.elem b := h.elem hk
  rw [join_comm h, of_join h.symm hk.symm hb ha, join_comm he]

/-- The type of an empty literal fits all others of its kind. -/
theorem join_of_isEmpty (h : Joinable a b) (hk : a.kind = b.kind) (ha : a.isEmpty) : join a b = b := by
  by_cases hne : a = b
  · rw [hne, join_self]
  · rw [join_of_ne h hne hk, if_pos ha]
    split
    · next hb => exact h.eq_of_isEmpty hk ha hb
    · rfl

theorem join_join_self (h : Joinable a b) : join a (join a b) = join a b := by
  refine join_induction (motive := fun a _ j => join a j = j) (fun a _ => join_self a)
    (fun a _ h _ => join_any h.left) (fun a _ _ _ _ => join_self a)
    (fun _ _ h hk ha => join_of_isEmpty h hk ha) (fun a b h hk hne ha hb ih => ?_) h
  have hn := kind_join_ne_none (h.elem hk) (h.elem_ne_none hk hne ha hb)
  have hj : Joinable (join a b) a := h.join (.refl h.left) h.symm
  rw [join_of_ne h hne hk, if_neg hb, if_neg ha] at hj
  rw [join_of hj.symm rfl hn ha, ih]

theorem join_assoc (hab : Joinable a b) (hac : Joinable a c) (hbc : Joinable b c) :
    join (join a b) c = join a (join b c) := by
  refine join_induction (motive := fun a b j => ∀ c, Joinable a c → Joinable b c →
    join j c = join a (join b c)) ?_ ?_ ?_ ?_ ?_ hab c hac hbc
  · exact fun a _ c hac _ => (join_join_self hac).symm
  · intro a b h hk c hac hbc
    rw [any_join hac.right]
    by_cases hkc : b.kind = c.kind
    · exact (join_of_kind_ne (by rw [kind_join hbc hkc]; exact hk)).symm
    · rw [join_of_kind_ne hkc, join_any hac.left]
  · intro a b h hk hb c hac hbc
    by_cases hkc : b.kind = c.kind
    · rw [join_of_isEmpty hbc hkc hb]
    · rw [join_of_kind_ne hkc, join_any hac.left, join_of_kind_ne (hk ▸ hkc)]
  · intro a b h hk ha c hac hbc
    by_cases hkc : b.kind = c.kind
    · have hj : Joinable (join b c) a := hbc.join h.symm hac.symm
      rw [join_of_isEmpty hj.symm (by rw [kind_join hbc hkc]; exact hk) ha]
    · rw [join_of_kind_ne hkc, join_any hac.left]
  · intro a b h hk hne ha hb ih c hac hbc
    have hn := kind_join_ne_none (h.elem hk) (h.elem_ne_none hk hne ha hb)
    have hab : join a b = of a.kind false (join a.elem b.elem) := by
      rw [join_of_ne h hne hk, if_neg hb, if_neg ha]
    have hj : Joinable (of a.kind false (join a.elem b.elem)) c := hab ▸ h.join hac hbc
    by_cases hkc : b.kind = c.kind
    · have hkac : a.kind = c.kind := hk.trans hkc
      by_cases hc : c.isEmpty
      · rw [join_comm hj, join_of_isEmpty hj.symm hkac.symm hc, join_comm hbc,
          join_of_isEmpty hbc.symm hkc.symm hc, hab]
      · rw [of_join hj hkac hn hc, ih c.elem (hac.elem hkac) (hbc.elem hkc)]
        by_cases hbc' : b = c
        · rw [← hbc', join_self, join_self, hab]
        · have hbc'' : join b c = of b.kind false (join b.elem c.elem) := by
            rw [join_of_ne hbc hbc' hkc, if_neg hc, if_neg hb]
          have hj' : Joinable a (of b.kind false (join b.elem c.elem)) :=
            (hbc'' ▸ hbc.join h.symm hac.symm).symm
          have hn' := kind_join_ne_none (hbc.elem hkc) (hbc.elem_ne_none hkc hbc' hb hc)
          rw [hbc'', join_of hj' hk hn' ha, hk]
    · rw [join_of_kind_ne hkc, join_any hac.left, join_of_kind_ne (hk ▸ hkc)]

/-! ### Literals -/

/-- The types of the elements of a literal go together, each with each. -/
def AllJoinable (ts : List Ty) : Prop :=
  ∀ t ∈ ts, ∀ u ∈ ts, Joinable t u

instance (ts : List Ty) : Decidable (AllJoinable ts) :=
  inferInstanceAs (Decidable (∀ t ∈ ts, ∀ u ∈ ts, Joinable t u))

namespace AllJoinable
variable {ts us : List Ty} {t u : Ty}

theorem perm (h : AllJoinable ts) (hperm : ts.Perm us) : AllJoinable us :=
  fun t ht u hu => h t (hperm.mem_iff.2 ht) u (hperm.mem_iff.2 hu)

theorem tail (h : AllJoinable (t :: ts)) : AllJoinable ts :=
  fun u hu v hv => h u (List.mem_cons_of_mem _ hu) v (List.mem_cons_of_mem _ hv)

theorem head (h : AllJoinable (t :: u :: ts)) : Joinable t u :=
  h t List.mem_cons_self u (List.mem_cons_of_mem _ List.mem_cons_self)

/-- The join of two of the types goes together with the others. -/
theorem join (h : AllJoinable (t :: u :: ts)) : AllJoinable (t.join u :: ts) := by
  have hrest {v : Ty} (hv : v ∈ ts) : Joinable (t.join u) v :=
    h.head.join (h t List.mem_cons_self v (List.mem_cons_of_mem _ (List.mem_cons_of_mem _ hv)))
      (h.tail u List.mem_cons_self v (List.mem_cons_of_mem _ hv))
  intro v hv w hw
  rcases List.mem_cons.1 hv with rfl | hv <;> rcases List.mem_cons.1 hw with rfl | hw
  · exact .refl (wellFormed_join h.head)
  · exact hrest hw
  · exact (hrest hv).symm
  · exact h.tail.tail v hv w hw

end AllJoinable

theorem foldl_join_perm {ts us : List Ty} (hperm : ts.Perm us) {t : Ty} (h : AllJoinable (t :: ts)) :
    ts.foldl join t = us.foldl join t := by
  induction hperm generalizing t with
  | nil => rfl
  | cons u _ ih => exact ih h.join
  | swap u v ts =>
    have htv := h.head
    have hvu := h.tail.head
    have htu : Joinable t u := (h.perm (.cons t (.swap u v ts))).head
    have hswap : (t.join v).join u = (t.join u).join v := by
      rw [join_assoc htv htu hvu, join_comm hvu, ← join_assoc htu htv hvu.symm]
    rw [List.foldl_cons, List.foldl_cons, List.foldl_cons, List.foldl_cons, hswap]
  | trans hperm _ ih ih' => exact (ih h).trans (ih' (h.perm (hperm.cons t)))

/-- Where the marks agree, the element type of a literal does not depend on the order of the elements, and so
an array of them goes wherever it goes in another order. -/
theorem combine_perm {ts us : List Ty} (hperm : ts.Perm us) (h : AllJoinable ts) :
    combine ts = combine us ∧
      ∀ slot : Ty, slot.accepts (array (combine ts)) = slot.accepts (array (combine us)) := by
  suffices hts : combine ts = combine us from ⟨hts, fun slot => by rw [hts]⟩
  induction hperm with
  | nil => rfl
  | cons t hperm => exact foldl_join_perm hperm h
  | swap t u ts =>
    rw [combine, combine, List.foldl_cons, List.foldl_cons, join_comm h.head]
  | trans hperm _ ih ih' => exact (ih h).trans (ih' (h.perm hperm))

/-- Arrays of arrays of numbers and of texts around an empty one, without marks. -/
def mixedElems : List Ty :=
  [array (array num), emptyArray, array (array string)]

theorem mixedElems_combine : AllJoinable mixedElems ∧ mixedElems.Perm mixedElems.reverse ∧
    combine mixedElems = combine mixedElems.reverse ∧ combine mixedElems = array (array any) := by
  have h : AllJoinable mixedElems := by decide
  have hperm : mixedElems.Perm mixedElems.reverse := (List.reverse_perm _).symm
  exact ⟨h, hperm, (combine_perm hperm h).1, rfl⟩

/-- A literal of numbers, a stored array of numbers and a literal of texts. -/
def markedNums : List Ty :=
  [array num, of .array true num, array string]

/-- A stored array of numbers keeps its type, unless it comes after a literal of numbers. -/
theorem markedNums_combine : (∀ t ∈ markedNums, t.wellFormed) ∧
    markedNums.Perm [of .array true num, array num, array string] ∧ combine markedNums = array any ∧
    combine [of .array true num, array num, array string] = any ∧
    (array (array any)).accepts (array (combine markedNums)) ≠
      (array (array any)).accepts (array (combine [of .array true num, array num, array string])) :=
  ⟨by decide, .swap .., rfl, rfl, by decide⟩

end TinyScript.Ty
