import TinyScript.Ty

/-!
# Types up to their storage marks

`Ty.same` compares types without their marks, so it is equality of `Ty.unfixed`. Types that a program
can write are settled (`Ty.settled`): nothing in them is empty or unknown, and to fit such a type is to
be the same.
-/

namespace TinyScript.Ty

/-! ### Marks -/

theorem same_iff {t u : Ty} : t.same u ↔ t.unfixed = u.unfixed := by
  induction t generalizing u with
  | leaf k f => cases u <;> simp [same, unfixed]
  | of k f e ih => cases u <;> simp [same, unfixed, ih]

@[simp] theorem same_refl (t : Ty) : t.same t := same_iff.2 rfl

theorem same_symm {t u : Ty} (h : t.same u) : u.same t := same_iff.2 (same_iff.1 h).symm

theorem same_trans {t u v : Ty} (h : t.same u) (h' : u.same v) : t.same v :=
  same_iff.2 ((same_iff.1 h).trans (same_iff.1 h'))

@[simp] theorem unfixed_unfixed (t : Ty) : t.unfixed.unfixed = t.unfixed := by
  induction t with
  | leaf => rfl
  | of k f e ih => simp [unfixed, ih]

@[simp] theorem unfixed_fixed (t : Ty) : t.fixed.unfixed = t.unfixed := by
  unfold fixed
  split
  · cases t <;> rfl
  · rfl

@[simp] theorem kind_unfixed (t : Ty) : t.unfixed.kind = t.kind := by cases t <;> rfl

@[simp] theorem elem_unfixed (t : Ty) : t.unfixed.elem = t.elem.unfixed := by cases t <;> rfl

theorem same_unfixed (t : Ty) : t.same t.unfixed := same_iff.2 (unfixed_unfixed t).symm

theorem same_fixed (t : Ty) : t.same t.fixed := same_iff.2 (unfixed_fixed t).symm

theorem kind_eq_of_same {t u : Ty} (h : t.same u) : t.kind = u.kind := by
  rw [← kind_unfixed, same_iff.1 h, kind_unfixed]

theorem elem_same_of_same {t u : Ty} (h : t.same u) : t.elem.same u.elem := by
  rw [same_iff, ← elem_unfixed, same_iff.1 h, elem_unfixed]

/-- A type of a leaf kind is one. -/
theorem same_leaf {t : Ty} {k : Kind} : t.same (leaf k false) ↔ ∃ f, t = leaf k f := by
  cases t <;> simp [same]

/-! ### Empty types -/

theorem isEmpty_of_same {t u : Ty} (h : t.same u) : t.isEmpty = u.isEmpty := by
  cases t <;> cases u <;> simp [same] at h
  · rfl
  · obtain ⟨rfl, h⟩ := h
    simp [isEmpty, kind_eq_of_same h]

theorem kind_elem_of_isEmpty {t : Ty} (h : t.isEmpty) : t.elem.kind = .none := by
  cases t with
  | leaf => rfl
  | of k f e =>
    simp only [isEmpty, Bool.and_eq_true, beq_iff_eq] at h
    exact h.2

/-! ### Settled types -/

/-- Whether this is a type that a program can write: there is nothing empty or unknown in it. -/
def settled : Ty → Bool
  | leaf k _ => k == .num || k == .string || k == .bool || k == .any
  | of k _ e => k.isComposite && e.settled

theorem settled_of_same {t u : Ty} (h : t.same u) : t.settled = u.settled := by
  induction t generalizing u with
  | leaf k f => cases u <;> simp_all [same, settled]
  | of k f e ih =>
    cases u with
    | leaf => simp [same] at h
    | of l g e' =>
      simp only [same, Bool.and_eq_true, beq_iff_eq] at h
      simp [settled, h.1, ih h.2]

theorem isGeneric_of_settled {t : Ty} (h : t.settled) : t.isGeneric = false := by
  cases t with
  | leaf k f => cases k <;> simp_all [settled, isGeneric, Kind.isComposite]
  | of k f e => rfl

theorem kind_ne_none_of_settled {t : Ty} (h : t.settled) : t.kind ≠ .none := by
  rintro hk
  cases t <;> simp_all [settled, kind, Kind.isComposite]

theorem kind_ne_illegal_of_settled {t : Ty} (h : t.settled) : t.kind ≠ .illegal := by
  rintro hk
  cases t <;> simp_all [settled, kind, Kind.isComposite]

theorem isEmpty_of_settled {t : Ty} (h : t.settled) : t.isEmpty = false := by
  cases t with
  | leaf => rfl
  | of k f e =>
    simp only [settled, Bool.and_eq_true] at h
    simp [isEmpty, kind_ne_none_of_settled h.2]

theorem kind_eq_of_fits {t u : Ty} (h : t.fits u) : t.kind = u.kind := by
  cases t with
  | leaf k f =>
    simp only [fits, Bool.or_eq_true, Bool.and_eq_true, beq_iff_eq] at h
    exact h.elim kind_eq_of_same And.left
  | of k f e =>
    rw [fits.eq_def] at h
    simp only [Bool.or_eq_true, Bool.and_eq_true, beq_iff_eq] at h
    exact h.elim kind_eq_of_same And.left

/-- Between settled types there is only equality left to fit. -/
theorem same_of_fits {t u : Ty} (ht : t.settled) (hu : u.settled) (h : t.fits u) : t.same u := by
  induction t generalizing u with
  | leaf k f => simpa [fits, isEmpty_of_settled hu] using h
  | of k f e ih =>
    cases u with
    | leaf => simp [fits, same, isEmpty_of_settled hu, isEmpty_of_settled ht] at h
    | of l g e' =>
      simp only [fits, isEmpty_of_settled ht, isEmpty_of_settled hu, Bool.false_or,
        Bool.or_eq_true, Bool.and_eq_true, beq_iff_eq] at h
      rcases h with h | ⟨hk, h⟩
      · exact h
      · simp only [settled, Bool.and_eq_true] at ht hu
        have hk : k = l := hk
        simp [same, hk, ih ht.2 hu.2 h]

/-- Whether values of the type can be wrapped for a slot of type `any`, so that nothing is unknown
about what is wrapped. -/
def wrappable (t : Ty) : Bool :=
  t.settled || t.same none

theorem wrappable_of_same {t u : Ty} (h : t.same u) : t.wrappable = u.wrappable := by
  have hnone : t.same none = u.same none := by
    rw [Bool.eq_iff_iff, same_iff, same_iff, same_iff.1 h]
  rw [wrappable, wrappable, settled_of_same h, hnone]

end TinyScript.Ty
