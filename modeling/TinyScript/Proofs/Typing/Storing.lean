import TinyScript.Proofs.Typing.Types

/-!
# What slots take

A slot takes a value if it accepts the value's type. `Ty.accepts` is a preorder on types without marks, and
marks only matter in the value (`Ty.accepts_preorder`): a mark keeps slots of type `any` from taking elements,
so that an array or a map in storage is never taken as one of another type.
-/

namespace TinyScript.Ty

variable {a b c t u slot : Ty} {top top' stored stored' : Bool}

/-! ### Levels and marks -/

/-- The type of the elements, if there is one. -/
def elem? : Ty → Option Ty
  | leaf .. => Option.none
  | of _ _ e => some e

/-- The type `n` levels below the top, if there are as many. -/
def level? : Ty → (n : Nat) → Option Ty
  | t, 0 => some t
  | t, n + 1 => t.elem?.bind (·.level? n)

/-- Whether no level of the type is marked. -/
def unmarked : Ty → Bool
  | leaf _ f => !f
  | of _ f e => !f && e.unmarked

/-- Whether the first type is the second one without some of its marks. -/
def lessMarked : Ty → Ty → Bool
  | leaf k f, leaf l g => k == l && (!f || g)
  | of k f s, of l g e => k == l && (!f || g) && s.lessMarked e
  | _, _ => false

theorem same_of_lessMarked (h : t.lessMarked u) : t.same u := by
  induction t generalizing u with
  | leaf k f =>
    cases u with
    | leaf l g =>
      simp only [lessMarked, Bool.and_eq_true] at h
      exact h.1
    | of => cases h
  | of k f s ih =>
    cases u with
    | leaf => cases h
    | of l g e =>
      simp only [lessMarked, Bool.and_eq_true] at h
      have hs := ih h.2
      simp only [same, Bool.and_eq_true]
      exact ⟨h.1.1, hs⟩

theorem isFixed_of_lessMarked (h : t.lessMarked u) (ht : t.isFixed) : u.isFixed := by
  cases t <;> cases u <;> simp_all [lessMarked, isFixed]

theorem lessMarked_of_same (h : t.same u) (ht : t.unmarked) : t.lessMarked u := by
  induction t generalizing u with
  | leaf k f =>
    cases u with
    | leaf => simp_all [same, unmarked, lessMarked]
    | of => cases h
  | of k f s ih =>
    cases u with
    | leaf => cases h
    | of l g e =>
      simp only [same, unmarked, Bool.and_eq_true] at h ht
      have hs := ih h.2 ht.2
      simp only [lessMarked, Bool.and_eq_true, Bool.or_eq_true]
      exact ⟨⟨h.1, .inl ht.1⟩, hs⟩

theorem isFixed_of_unmarked (h : t.unmarked) : t.isFixed = false := by
  cases t <;> simp_all [unmarked, isFixed]

/-! ### One level -/

/-- A slot takes its own type; one of type `any` takes all that has a value, below the top if it is not
stored; and an array or a map takes another one if all arrays or maps will do, if there is nothing in the
other one, or if it takes the elements. -/
theorem acceptsAt_iff : slot.acceptsAt t top stored ↔ slot.same t ∨
    (slot.kind = .any ∧ t.anyTakes top (stored || t.isFixed)) ∨
    (slot.kind = t.kind ∧ (slot.isGeneric ∨ t.isEmpty ∨
      ∃ e u, slot.elem? = some e ∧ t.elem? = some u ∧ e.acceptsAt u false (stored || t.isFixed))) := by
  cases slot with
  | leaf k f =>
    have hempty (hk : k = t.kind) (ht : t.isEmpty) : k.isComposite := by
      cases t <;> simp_all [isEmpty, kind]
    simp only [acceptsAt, Bool.or_eq_true, Bool.and_eq_true, beq_iff_eq, or_assoc, kind, isGeneric, elem?]
    refine or_congr_right (or_congr_right (and_congr_right fun hk => ⟨.inl, ?_⟩))
    rintro (h | h | ⟨e, u, h, -⟩)
    · exact h
    · exact hempty hk h
    · cases h
  | of k f e =>
    cases t <;> simp [acceptsAt, or_assoc, kind, isGeneric, elem?]

/-- What holds of a type if it holds of the type of its elements holds of every type. -/
@[elab_as_elim]
theorem elemInduction {motive : Ty → Prop} (step : ∀ t, (∀ e, t.elem? = some e → motive e) → motive t)
    (t : Ty) : motive t := by
  induction t with
  | leaf k f => exact step _ nofun
  | of k f e ih =>
    refine step _ fun e' he => ?_
    cases he
    exact ih

theorem anyTakes_congr (hkind : t.kind = u.kind) (hstored : stored' → stored)
    (h : u.anyTakes top stored) : t.anyTakes top stored' := by
  cases stored' <;> simp_all [anyTakes]

/-! ### Marks -/

theorem elem?_of_same {e : Ty} (h : t.same u) (he : u.elem? = some e) :
    ∃ d, t.elem? = some d ∧ d.same e := by
  cases t <;> cases u <;> simp_all [same, elem?]

theorem isGeneric_of_same (h : t.same u) : t.isGeneric = u.isGeneric := by
  cases t <;> cases u <;> simp_all [same, isGeneric]

theorem acceptsAt_of_same_left (h : b.same a) (hacc : a.acceptsAt t top stored) : b.acceptsAt t top stored := by
  induction a using elemInduction generalizing b t top stored with
  | step a ih =>
    have hk := kind_eq_of_same h
    rcases acceptsAt_iff.1 hacc with hs | ⟨hany, htakes⟩ | ⟨hkind, hin⟩
    · exact acceptsAt_iff.2 (.inl (same_trans h hs))
    · exact acceptsAt_iff.2 (.inr (.inl ⟨hk.trans hany, htakes⟩))
    · refine acceptsAt_iff.2 (.inr (.inr ⟨hk.trans hkind, ?_⟩))
      rw [isGeneric_of_same h]
      refine hin.imp id (Or.imp id ?_)
      rintro ⟨e, u, he, hu, hacc⟩
      obtain ⟨d, hd, hsame⟩ := elem?_of_same h he
      exact ⟨d, u, hd, hu, ih e he hsame hacc⟩

theorem elem?_of_lessMarked {e : Ty} (h : t.lessMarked u) (he : u.elem? = some e) :
    ∃ d, t.elem? = some d ∧ d.lessMarked e := by
  cases t <;> cases u <;> simp_all [lessMarked, elem?]

/-- What is taken is taken with fewer marks as well. -/
theorem acceptsAt_of_lessMarked (ht : t.lessMarked u) (hstored : stored' → stored)
    (h : slot.acceptsAt u top stored) : slot.acceptsAt t top stored' := by
  induction slot using elemInduction generalizing t u top stored stored' with
  | step slot ih =>
    have hsame := same_of_lessMarked ht
    have hk := kind_eq_of_same hsame
    have hmark : stored' || t.isFixed → stored || u.isFixed := by
      simp only [Bool.or_eq_true]
      exact Or.imp hstored (isFixed_of_lessMarked ht)
    rcases acceptsAt_iff.1 h with hs | ⟨hany, htakes⟩ | ⟨hkind, hin⟩
    · exact acceptsAt_iff.2 (.inl (same_trans hs (same_symm hsame)))
    · exact acceptsAt_iff.2 (.inr (.inl ⟨hany, anyTakes_congr hk hmark htakes⟩))
    · refine acceptsAt_iff.2 (.inr (.inr ⟨hkind.trans hk.symm, ?_⟩))
      rw [isEmpty_of_same hsame]
      refine hin.imp id (Or.imp id ?_)
      rintro ⟨e, v, he, hv, hacc⟩
      obtain ⟨d, hd, hless⟩ := elem?_of_lessMarked ht hv
      exact ⟨e, d, he, hd, ih e he hless hmark hacc⟩

/-! ### Slots of slots -/

/-- A slot takes types of its own kind, unless it is of type `any`. -/
theorem kind_of_acceptsAt (h : slot.acceptsAt t top stored) :
    slot.kind = t.kind ∨ slot.kind = .any ∧ t.anyTakes top (stored || t.isFixed) := by
  rcases acceptsAt_iff.1 h with hs | hany | ⟨hkind, -⟩
  · exact .inl (kind_eq_of_same hs)
  · exact .inr hany
  · exact .inl hkind

theorem exists_elem?_of_isEmpty (h : t.isEmpty) : ∃ e, t.elem? = some e ∧ e.kind = .none := by
  cases t <;> simp_all [isEmpty, elem?]

theorem isComposite_of_isEmpty (h : t.isEmpty) : t.isComposite := by
  cases t <;> simp_all [isEmpty, isComposite, kind]

theorem isEmpty_of_kind_elem {e : Ty} (ht : t.isComposite) (he : t.elem? = some e) (hk : e.kind = .none) :
    t.isEmpty := by
  cases t <;> simp_all [isEmpty, isComposite, kind, elem?]

theorem kind_ne_any_of_isComposite (h : t.isComposite) : t.kind ≠ .any := by
  intro hk
  rw [isComposite, hk] at h
  cases h

/-- Nothing but an empty array or map goes into the slot of an empty one. -/
theorem isEmpty_of_acceptsAt (hb : b.isEmpty) (h : b.acceptsAt t top stored) : t.isEmpty := by
  have hcomp := isComposite_of_isEmpty hb
  rcases acceptsAt_iff.1 h with hs | ⟨hany, -⟩ | ⟨hkind, hgen | hempty | ⟨e, u, he, hu, hacc⟩⟩
  · rw [← isEmpty_of_same hs]
    exact hb
  · exact absurd hany (kind_ne_any_of_isComposite hcomp)
  · cases b with
    | leaf => cases hb
    | of => cases hgen
  · exact hempty
  · obtain ⟨e', he', hnone⟩ := exists_elem?_of_isEmpty hb
    obtain rfl : e = e' := Option.some.inj (he.symm.trans he')
    have hu' : u.kind = .none := by
      rcases kind_of_acceptsAt hacc with hk | ⟨hk, -⟩
      · rw [← hk]
        exact hnone
      · rw [hnone] at hk
        cases hk
    have htcomp : t.isComposite := by
      rw [isComposite, ← hkind]
      exact hcomp
    exact isEmpty_of_kind_elem htcomp hu hu'

/-- What has a value, and is not stored, goes into a slot of type `any`. -/
theorem anyTakes_of_unmarked (ht : t.unmarked) (hb : b.anyTakes top stored) (h : b.acceptsAt t top stored') :
    t.anyTakes top (false || t.isFixed) := by
  have hvalue : b.kind ≠ .none ∧ b.kind ≠ .illegal := by
    simp only [anyTakes, Bool.and_eq_true, bne_iff_ne] at hb
    exact hb.1
  have hvalue : t.kind ≠ .none ∧ t.kind ≠ .illegal := by
    rcases kind_of_acceptsAt h with hk | ⟨-, htakes⟩
    · rw [← hk]
      exact hvalue
    · simp only [anyTakes, Bool.and_eq_true, bne_iff_ne] at htakes
      exact htakes.1
  simp [anyTakes, hvalue, isFixed_of_unmarked ht]

theorem unmarked_elem {e : Ty} (ht : t.unmarked) (he : t.elem? = some e) : e.unmarked := by
  cases t <;> simp_all [unmarked, elem?]

theorem elem?_eq_none (h : t.isGeneric) : t.elem? = Option.none := by
  cases t with
  | leaf => rfl
  | of => cases h

/-- What goes into a slot goes wherever the slot goes, if it is without marks. -/
theorem acceptsAt_trans (ht : t.unmarked) (hab : a.acceptsAt b top stored) (hbt : b.acceptsAt t top stored') :
    a.acceptsAt t top false := by
  induction a using elemInduction generalizing b t top stored stored' with
  | step a ih =>
    -- only if neither step is an end of the walk, the elements have to be compared
    rcases acceptsAt_iff.1 hab with hs | ⟨hany, htakes⟩ | ⟨hkind, hin⟩
    · have hbt' : b.acceptsAt t top false := acceptsAt_of_lessMarked (lessMarked_of_same (same_refl t) ht) nofun hbt
      exact acceptsAt_of_same_left hs hbt'
    · exact acceptsAt_iff.2 (.inr (.inl ⟨hany, anyTakes_of_unmarked ht htakes hbt⟩))
    rcases acceptsAt_iff.1 hbt with hs | ⟨hany, htakes⟩ | ⟨hkind', hin'⟩
    · exact acceptsAt_of_lessMarked (lessMarked_of_same (same_symm hs) ht) nofun hab
    · refine acceptsAt_iff.2 (.inr (.inl ⟨hkind.trans hany, anyTakes_congr rfl ?_ htakes⟩))
      simp [isFixed_of_unmarked ht]
    · refine acceptsAt_iff.2 (.inr (.inr ⟨hkind.trans hkind', ?_⟩))
      rcases hin with hgen | hempty | ⟨e, u, he, hu, heu⟩
      · exact .inl hgen
      · exact .inr (.inl (isEmpty_of_acceptsAt hempty hbt))
      rcases hin' with hgen | hempty | ⟨u', v, hu', hv, huv⟩
      · rw [elem?_eq_none hgen] at hu
        cases hu
      · exact .inr (.inl hempty)
      · obtain rfl : u = u' := Option.some.inj (hu.symm.trans hu')
        have hmark : (false || t.isFixed) = false := isFixed_of_unmarked ht
        have hev := ih e he (unmarked_elem ht hv) heu huv
        exact .inr (.inr ⟨e, v, he, hv, by rwa [hmark]⟩)

/-! ### Storage -/

/-- The walk down from two types comes to its end at level `n`: the first one is a parameter type that takes
all arrays or all maps, or the second one is that of an empty array or map. -/
def EndsAt (a b : Ty) (n : Nat) : Prop :=
  (∃ s, a.level? n = some s ∧ s.isGeneric) ∨ ∃ t, b.level? n = some t ∧ t.isEmpty

/-- Two types have the same kinds at every level from the top to the first one at which the walk ends. -/
def SameDown (a b : Ty) : Prop :=
  ∀ n, (∀ m < n, ¬ EndsAt a b m) → (a.level? n).map kind = (b.level? n).map kind

theorem endsAt_succ {e s : Ty} {n : Nat} (ha : a.elem? = some e) (hb : b.elem? = some s) :
    EndsAt a b (n + 1) ↔ EndsAt e s n := by
  simp only [EndsAt, level?, ha, hb, Option.bind_some]

/-- Two types of one kind go down together if their elements do, or if the walk ends at them. -/
theorem sameDown_of_elem? (hkind : a.kind = b.kind)
    (helem : EndsAt a b 0 ∨ (a.elem? = Option.none ∧ b.elem? = Option.none) ∨
      ∃ e s, a.elem? = some e ∧ b.elem? = some s ∧ SameDown e s) : SameDown a b := by
  intro n hn
  cases n with
  | zero => exact congrArg some hkind
  | succ n =>
    rcases helem with hend | ⟨ha, hb⟩ | ⟨e, s, ha, hb, hdown⟩
    · exact absurd hend (hn 0 n.succ_pos)
    · rw [level?, level?, ha, hb]
    · have hends : ∀ m < n, ¬ EndsAt e s m := by
        intro m hm hend
        exact hn (m + 1) (Nat.succ_lt_succ hm) ((endsAt_succ ha hb).2 hend)
      rw [level?, level?, ha, hb]
      exact hdown n hends

theorem sameDown_of_same (h : a.same b) : SameDown a b := by
  induction a using elemInduction generalizing b with
  | step a ih =>
    refine sameDown_of_elem? (kind_eq_of_same h) (.inr ?_)
    cases hb : b.elem? with
    | none =>
      cases ha : a.elem? with
      | none => exact .inl ⟨rfl, rfl⟩
      | some e =>
        obtain ⟨s, hs, -⟩ := elem?_of_same (same_symm h) ha
        rw [hb] at hs
        cases hs
    | some s =>
      obtain ⟨e, he, hsame⟩ := elem?_of_same h hb
      exact .inr ⟨e, s, he, rfl, ih e he hsame⟩

/-- A slot that takes a stored array or map goes down as it does. -/
theorem sameDown_of_acceptsAt (h : a.acceptsAt b top stored) (hstored : stored || b.isFixed)
    (htop : top → a.kind ≠ .any) : SameDown a b := by
  induction a using elemInduction generalizing b top stored with
  | step a ih =>
    rcases acceptsAt_iff.1 h with hs | ⟨hany, htakes⟩ | ⟨hkind, hin⟩
    · exact sameDown_of_same hs
    · -- neither at the top nor below it a slot of type `any` takes what is stored
      simp only [anyTakes, hstored, Bool.not_true, Bool.or_false, Bool.and_eq_true] at htakes
      exact absurd hany (htop htakes.2)
    · refine sameDown_of_elem? hkind ?_
      rcases hin with hgen | hempty | ⟨e, s, he, hs, hacc⟩
      · exact .inl (.inl ⟨a, rfl, hgen⟩)
      · exact .inl (.inr ⟨b, rfl, hempty⟩)
      · rw [hstored] at hacc
        exact .inr (.inr ⟨e, s, he, hs, ih e he hacc rfl nofun⟩)

/-! ### The preorder -/

/-- To take is a preorder on types without marks. Marks of the slot do not matter, and marks of the value only
forbid. What takes a stored array or map is of type `any`, or has its kind at every level from the top down
to a parameter type that takes all arrays or all maps, or to what is empty in the value. -/
theorem accepts_preorder :
    (∀ t : Ty, t.accepts t) ∧
    (∀ a b c : Ty, c.unmarked → a.accepts b → b.accepts c → a.accepts c) ∧
    (∀ a a' b : Ty, a.same a' → a.accepts b = a'.accepts b) ∧
    (∀ a b b' : Ty, b'.lessMarked b → a.accepts b → a.accepts b') ∧
    (∀ a b : Ty, b.isFixed → a.isAny = false → a.accepts b → SameDown a b) := by
  refine ⟨fun t => ?_, fun a b c hc hab hbc => ?_, fun a a' b h => ?_, fun a b b' h hab => ?_,
    fun a b hb ha hab => ?_⟩
  · exact acceptsAt_iff.2 (.inl (same_refl t))
  · exact acceptsAt_trans hc hab hbc
  · exact Bool.eq_iff_iff.2 ⟨acceptsAt_of_same_left (same_symm h), acceptsAt_of_same_left h⟩
  · exact acceptsAt_of_lessMarked h id hab
  · have hany : a.kind ≠ .any := by
      simpa [isAny] using ha
    exact sameDown_of_acceptsAt hab hb fun _ => hany

/-- The type of a stored array of arrays of numbers. -/
def storedRows : Ty :=
  of .array true (of .array true num)

theorem storedRows_accepts :
    ((array any).accepts (array (array num)) ∧ (array (array num)).accepts (array emptyArray) ∧
      (array any).accepts (array emptyArray)) ∧
    ((array any).same (of .array true any) ∧
      (array any).accepts storedRows = (of .array true any).accepts storedRows) ∧
    ((of .array true (array num)).lessMarked storedRows ∧ (array (array num)).accepts storedRows ∧
      (array (array num)).accepts (of .array true (array num))) ∧
    SameDown (array (array num)) storedRows := by
  obtain ⟨-, htrans, hcongr, hless, hdown⟩ := accepts_preorder
  have htaken : (array (array num)).accepts storedRows := by decide
  refine ⟨⟨by decide, by decide, ?_⟩, ⟨by decide, ?_⟩, ⟨by decide, htaken, ?_⟩, ?_⟩
  · exact htrans _ (array (array num)) _ (by decide) (by decide) (by decide)
  · exact hcongr _ _ _ (by decide)
  · exact hless _ storedRows _ (by decide) htaken
  · exact hdown _ _ (by decide) (by decide) htaken

end TinyScript.Ty
