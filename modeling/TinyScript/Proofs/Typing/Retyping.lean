import TinyScript.Expr.Retype
import TinyScript.Proofs.Typing.Judgement

/-!
# Retyped expressions are checked

A literal can change its type: its empty parts get elements of type `any` (`Expr.infer`), or it is
fitted into a slot (`Expr.wrap`). What is checked of an expression still holds afterwards. Only arrays
and maps have element types here (`Ty.proper`), as in all types that a program can get.
-/

namespace TinyScript

namespace Ty

/-- Whether only arrays and maps in the type have element types. -/
def proper : Ty → Bool
  | leaf .. => true
  | of k _ e => k.isComposite && e.proper

theorem proper_of_settled {t : Ty} (h : t.settled) : t.proper := by
  induction t with
  | leaf => rfl
  | of k f e ih =>
    simp only [settled, Bool.and_eq_true] at h
    simp [proper, h.1, ih h.2]

theorem proper_elem {t : Ty} (h : t.proper) : t.elem.proper := by
  cases t with
  | leaf => rfl
  | of k f e =>
    simp only [proper, Bool.and_eq_true] at h
    exact h.2

@[simp] theorem proper_unfixed (t : Ty) : t.unfixed.proper = t.proper := by
  induction t with
  | leaf => rfl
  | of k f e ih => simp [unfixed, proper, ih]

@[simp] theorem proper_fixed (t : Ty) : t.fixed.proper = t.proper := by
  unfold fixed
  split
  · cases t <;> rfl
  · rfl

@[simp] theorem kind_fixed (t : Ty) : t.fixed.kind = t.kind := by
  rw [← kind_unfixed, unfixed_fixed, kind_unfixed]

/-- Of the types of a kind without elements, only one is proper. -/
theorem same_of_kind_eq {t u : Ty} (ht : t.proper) (hu : u.proper) (hk : t.kind = u.kind)
    (hc : t.kind.isComposite = false) : t.same u := by
  cases t with
  | of => simp_all [proper, kind]
  | leaf =>
    cases u with
    | of => simp_all [proper, kind]
    | leaf => simpa [same, kind] using hk

theorem proper_infer {t : Ty} (h : t.proper) : t.infer.proper := by
  induction t with
  | leaf => rfl
  | of k f e ih =>
    simp only [proper, Bool.and_eq_true] at h
    unfold infer
    split
    · simp [proper, h.1, h.2]
    · split
      · simp [proper, h.1, any]
      · simp [proper, h.1, ih h.2]

@[simp] theorem kind_infer (t : Ty) : t.infer.kind = t.kind := by
  cases t with
  | leaf => rfl
  | of k f e =>
    unfold infer
    split
    · rfl
    · split <;> rfl

/-- A type without elements stays as it is. -/
theorem infer_of_same_leaf {t : Ty} {k : Kind} (h : t.same (leaf k false)) : t.infer = t := by
  obtain ⟨f, rfl⟩ := same_leaf.1 h
  rfl

/-- A type of arrays, with their element type. -/
theorem same_array_elem {t : Ty} : t.same (array t.elem) ↔ t.kind = .array ∧ t.isGeneric = false := by
  cases t with
  | leaf k f => simp only [same, array, kind, isGeneric]; cases k <;> simp [Kind.isComposite]
  | of k f e => simp [same, array, kind, elem, isGeneric]

/-- A type of maps, with their element type. -/
theorem same_map_elem {t : Ty} : t.same (map t.elem) ↔ t.kind = .map ∧ t.isGeneric = false := by
  cases t with
  | leaf k f => simp only [same, map, kind, isGeneric]; cases k <;> simp [Kind.isComposite]
  | of k f e => simp [same, map, kind, elem, isGeneric]

theorem isGeneric_infer (t : Ty) : t.infer.isGeneric = t.isGeneric := by
  cases t with
  | leaf => rfl
  | of k f e =>
    unfold infer
    split
    · rfl
    · split <;> rfl

theorem isGeneric_unfixed (t : Ty) : t.unfixed.isGeneric = t.isGeneric := by
  cases t <;> rfl

end Ty

/-! ### Operators -/

/-- A type after its expression was retyped, or not. -/
def Ty.Infers (t t' : Ty) : Prop :=
  t' = t ∨ t' = t.infer

theorem Ty.Infers.kind_eq {t t' : Ty} (h : t.Infers t') : t'.kind = t.kind := by
  rcases h with rfl | rfl <;> simp

theorem Ty.Infers.same {t t' : Ty} {k : Kind} (h : t.Infers t') (hs : t.same (.leaf k false)) :
    t'.same (.leaf k false) := by
  rcases h with rfl | rfl
  · exact hs
  · rwa [Ty.infer_of_same_leaf hs]

theorem BinaryOp.Takes.infer {op : BinaryOp} {l r t l' r' t' : Ty} (h : op.Takes l r t)
    (hl : l.Infers l') (hr : r.Infers r') (ht : t.Infers t') : op.Takes l' r' t' := by
  cases op with
  | eq | notEq => exact ht.same h
  | sub | mul | div | rem | and | or => exact ⟨hl.same h.1, hr.same h.2.1, ht.same h.2.2⟩
  | lt | gt | ltEq | gtEq =>
    exact ⟨h.1.imp (fun h => ⟨hl.same h.1, hr.same h.2⟩) fun h => ⟨hl.same h.1, hr.same h.2⟩,
      ht.same h.2⟩
  | add =>
    obtain h | h | h := h
    · exact .inl ⟨hl.same h.1, hr.same h.2.1, ht.same h.2.2⟩
    · exact .inr (.inl ⟨hl.same h.1, hr.same h.2.1, ht.same h.2.2⟩)
    · exact .inr (.inr ⟨hl.kind_eq.trans h.1, hr.kind_eq.trans h.2.1, ht.kind_eq.trans h.2.2⟩)

namespace Expr
variable {F : Sigs} {V : Vars}

theorem infers_infer (e : Expr) : e.ty.Infers e.infer.ty := by
  cases e <;> first | exact .inr rfl | exact .inl rfl

/-! ### Literals with nothing empty -/

mutual

theorem Checked.infer {e : Expr} (h : e.Checked F V) : e.infer.Checked F V := by
  match e with
  | .array m layout elems =>
    refine ⟨?_, AllChecked.infer h.2⟩
    have := Ty.same_array_elem.1 h.1
    exact Ty.same_array_elem.2 ⟨(Ty.kind_infer _).trans this.1, (Ty.isGeneric_infer _).trans this.2⟩
  | .map m layout pairs =>
    refine ⟨?_, PairsChecked.infer h.2⟩
    have := Ty.same_map_elem.1 h.1
    exact Ty.same_map_elem.2 ⟨(Ty.kind_infer _).trans this.1, (Ty.isGeneric_infer _).trans this.2⟩
  | .group m inner => exact Checked.infer (e := inner) h
  | .binary m op tight left right =>
    exact ⟨h.1.infer left.infers_infer right.infers_infer (.inr rfl), Checked.infer h.2.1,
      Checked.infer h.2.2⟩
  | .var .. | .num .. | .str .. | .bool .. | .call .. | .unary .. | .index .. | .slice .. | .dot ..
  | .assert .. | .any .. => exact h

theorem AllChecked.infer {es : List Expr} (h : AllChecked F V es) :
    AllChecked F V (inferAll es) := by
  match es with
  | [] => trivial
  | e :: es => exact ⟨Checked.infer h.1, AllChecked.infer h.2⟩

theorem PairsChecked.infer {ps : List (String × Expr)} (h : PairsChecked F V ps) :
    PairsChecked F V (inferPairs ps) := by
  match ps with
  | [] => trivial
  | (k, e) :: ps => exact ⟨Checked.infer h.1, PairsChecked.infer h.2⟩

end

theorem proper_infer {e : Expr} (h : e.ty.proper) : e.infer.ty.proper := by
  rcases e.infers_infer with hi | hi <;> rw [hi]
  · exact h
  · exact Ty.proper_infer h

/-! ### Expressions for slots -/

theorem Checked.toAny {e : Expr} (h : e.Checked F V) : e.toAny.Checked F V :=
  ⟨rfl, h.infer⟩

/-- What a literal has to be to be retyped. -/
theorem of_fit_retyped {t target : Ty} (h : fit t target = .retyped) :
    t.kind = target.kind ∧ target.isGeneric = false ∧ target.same t = false := by
  unfold fit at h
  split at h
  · cases h
  · next hne =>
    split at h
    · cases h
    · split at h
      · cases h
      · next hk =>
        simp only [Bool.or_eq_true, not_or, Bool.not_eq_true, bne_eq_false_iff_eq] at hne hk
        exact ⟨hk.2, hne.1.2, hne.1.1⟩

theorem of_fit_wrapped {t target : Ty} (h : fit t target = .wrapped) : target.kind = .any := by
  unfold fit at h
  split at h
  · cases h
  · split at h
    · next hany => simpa [Ty.isAny] using hany
    · split at h <;> cases h

/-- The type of an expression in a slot: it is as it was, wrapped or retyped. -/
theorem ty_wrap (target : Ty) (e : Expr) :
    (e.wrap target).ty = e.ty ∨ ((e.wrap target).ty = .any ∧ target.kind = .any) ∨
      ((e.wrap target).ty = target.unfixed ∧ e.ty.kind = target.kind) := by
  cases e with
  | array | map | binary | group =>
    unfold wrap
    split
    · exact .inl rfl
    · next hf => exact .inr (.inl ⟨rfl, of_fit_wrapped hf⟩)
    · next hf => exact .inr (.inr ⟨rfl, (of_fit_retyped hf).1⟩)
  | _ =>
    unfold wrap
    split
    · next hf => exact .inr (.inl ⟨rfl, of_fit_wrapped hf⟩)
    · exact .inl rfl

theorem proper_wrap {target : Ty} {e : Expr} (h : e.ty.proper) (ht : target.proper) :
    (e.wrap target).ty.proper := by
  rcases ty_wrap target e with h' | ⟨h', -⟩ | ⟨h', -⟩ <;> rw [h']
  · exact h
  · rfl
  · rwa [Ty.proper_unfixed]

/-- Operands of a sum of arrays that become arrays of another type. -/
theorem kind_wrap {target : Ty} {e : Expr} (hk : e.ty.kind = .array) (ht : target.kind = .array) :
    (e.wrap target).ty.kind = .array := by
  rcases ty_wrap target e with h | ⟨-, h⟩ | ⟨h, -⟩
  · rwa [h]
  · rw [ht] at h; cases h
  · rwa [h, Ty.kind_unfixed]

/-- Only sums of arrays are retyped. -/
theorem takes_wrap {op : BinaryOp} {left right : Expr} {t target : Ty}
    (h : op.Takes left.ty right.ty t) (ht : target.proper) (hf : fit t target = .retyped) :
    op.Takes (left.wrap target).ty (right.wrap target).ty target.unfixed := by
  obtain ⟨hk, -, hne⟩ := of_fit_retyped hf
  have hleaf {k : Kind} (hs : t.same (.leaf k false)) (hc : k.isComposite = false) : False := by
    obtain ⟨f, rfl⟩ := Ty.same_leaf.1 hs
    have := Ty.same_of_kind_eq ht (u := .leaf k f) rfl hk.symm (by rw [← hk]; exact hc)
    rw [hne] at this
    cases this
  cases op with
  | eq | notEq => exact (hleaf h rfl).elim
  | sub | mul | div | rem | and | or => exact (hleaf h.2.2 rfl).elim
  | lt | gt | ltEq | gtEq => exact (hleaf h.2 rfl).elim
  | add =>
    obtain h | h | ⟨hl, hr, ht⟩ := h
    · exact (hleaf h.2.2 rfl).elim
    · exact (hleaf h.2.2 rfl).elim
    · have htarget := hk.symm.trans ht
      exact .inr (.inr ⟨kind_wrap hl htarget, kind_wrap hr htarget,
        (Ty.kind_unfixed _).trans htarget⟩)

mutual

theorem Checked.wrap {target : Ty} {e : Expr} (h : e.Checked F V) (ht : target.proper) :
    (e.wrap target).Checked F V := by
  match e with
  | .array m layout elems =>
    unfold Expr.wrap
    split
    · exact h
    · exact h.toAny
    · next hf =>
      obtain ⟨hk, hg, -⟩ := of_fit_retyped hf
      refine ⟨Ty.same_array_elem.2 ⟨?_, (Ty.isGeneric_unfixed _).trans hg⟩,
        AllChecked.wrap h.2 (Ty.proper_elem ht)⟩
      rw [Ty.kind_unfixed, ← hk]
      exact (Ty.same_array_elem.1 h.1).1
  | .map m layout pairs =>
    unfold Expr.wrap
    split
    · exact h
    · exact h.toAny
    · next hf =>
      obtain ⟨hk, hg, -⟩ := of_fit_retyped hf
      refine ⟨Ty.same_map_elem.2 ⟨?_, (Ty.isGeneric_unfixed _).trans hg⟩,
        PairsChecked.wrap h.2 (Ty.proper_elem ht)⟩
      rw [Ty.kind_unfixed, ← hk]
      exact (Ty.same_map_elem.1 h.1).1
  | .binary m op tight left right =>
    unfold Expr.wrap
    split
    · exact h
    · exact h.toAny
    · next hf => exact ⟨takes_wrap h.1 ht hf, Checked.wrap h.2.1 ht, Checked.wrap h.2.2 ht⟩
  | .group m inner =>
    unfold Expr.wrap
    split
    · exact h
    · exact h.toAny
    · exact Checked.wrap (e := inner) h ht
  | .var .. | .num .. | .str .. | .bool .. | .call .. | .unary .. | .index .. | .slice .. | .dot ..
  | .assert .. | .any .. =>
    unfold Expr.wrap
    split
    · exact h.toAny
    · exact h

theorem AllChecked.wrap {target : Ty} {es : List Expr} (h : AllChecked F V es) (ht : target.proper) :
    AllChecked F V (wrapAll target es) := by
  match es with
  | [] => trivial
  | e :: es => exact ⟨Checked.wrap h.1 ht, AllChecked.wrap h.2 ht⟩

theorem PairsChecked.wrap {target : Ty} {ps : List (String × Expr)} (h : PairsChecked F V ps)
    (ht : target.proper) : PairsChecked F V (wrapPairs target ps) := by
  match ps with
  | [] => trivial
  | (k, e) :: ps => exact ⟨Checked.wrap h.1 ht, PairsChecked.wrap h.2 ht⟩

end

end Expr

end TinyScript
