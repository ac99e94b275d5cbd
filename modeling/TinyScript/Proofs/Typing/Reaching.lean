import TinyScript.Parsing.Program
import TinyScript.Prelude.Standard
import TinyScript.Proofs.Typing.Retyping

/-!
# Retyped expressions reach their slots

A slot accepts an expression because of its type, and `Expr.wrap` retypes it by its shape. Both agree where
the type of an expression tells what its parts are (`Expr.pliable`): what the slot accepts gets the slot's
type, with all its parts (`Expr.reaches_of_accepts`). They do not for a slice of a variable, whose type is that
of a literal (`sliceSource_mistyped`).
-/

namespace TinyScript

namespace Ty

/-- Whether a slot can have the type: it is no parameter type that takes all arrays or all maps, and only
arrays and maps in it have elements. -/
def concrete : Ty → Bool
  | leaf k _ => !k.isComposite
  | of k _ e => k.isComposite && e.concrete

/-- Whether the type fits slots of its own type and of type `any` only: it has no elements, or is marked and
has nothing empty in it. -/
def rigid (t : Ty) : Bool :=
  !t.isComposite || (t.isFixed && t.settled)

/-- Whether a slot that accepts values of type `u` accepts those of type `t`: the types are the same up to
marks of `u` and empty parts of `t`. -/
def under : (t u : Ty) → Bool
  | leaf k f, leaf l g => k == l && (!f || g)
  | of k f s, of l g e => k == l && (!f || g) && (s.same none || s.under e)
  | _, _ => false

variable {t u slot : Ty} {top stored stored' : Bool}

theorem kind_eq_of_under (h : t.under u) : t.kind = u.kind := by
  cases t <;> cases u <;> simp_all [under, kind]

theorem isFixed_of_under (h : t.under u) (ht : t.isFixed) : u.isFixed := by
  cases t <;> cases u <;> simp_all [under, isFixed]

theorem isGeneric_of_concrete (h : t.concrete) : t.isGeneric = false := by
  cases t <;> simp_all [concrete, isGeneric]

theorem proper_of_concrete (h : t.concrete) : t.proper := by
  induction t with
  | leaf => rfl
  | of k f e ih =>
    simp only [concrete, Bool.and_eq_true] at h
    simp [proper, h.1, ih h.2]

theorem proper_of_under (h : t.under u) (hu : u.proper) : t.proper := by
  induction t generalizing u with
  | leaf => rfl
  | of k f s ih =>
    cases u with
    | leaf => cases h
    | of l g e =>
      simp only [under, proper, Bool.and_eq_true, Bool.or_eq_true, beq_iff_eq] at h hu ⊢
      refine ⟨h.1.1 ▸ hu.1, h.2.elim (fun hn => ?_) fun h => ih h hu.2⟩
      obtain ⟨f, rfl⟩ := same_leaf.1 hn
      rfl

theorem concrete_elem (h : t.concrete) : t.elem.concrete := by
  cases t with
  | leaf => rfl
  | of k f e =>
    simp only [concrete, Bool.and_eq_true] at h
    exact h.2

theorem acceptsAt_of_same (h : slot.same t) : slot.acceptsAt t top stored := by
  cases slot <;> simp [acceptsAt, h]

theorem acceptsAt_leaf {k : Kind} {f : Bool} (hs : (leaf k f).concrete) :
    (leaf k f).acceptsAt t top stored ↔
      (leaf k f).same t ∨ k = .any ∧ t.anyTakes top (stored || t.isFixed) := by
  simp only [concrete, Bool.not_eq_true'] at hs
  simp [acceptsAt, hs]

theorem acceptsAt_of {k : Kind} {f : Bool} {e : Ty} (hs : (of k f e).concrete) :
    (of k f e).acceptsAt t top stored ↔ (of k f e).same t ∨
      k = t.kind ∧ (t.isEmpty ∨ t.isGeneric = false ∧ e.acceptsAt t.elem false (stored || t.isFixed)) := by
  simp only [concrete, Bool.and_eq_true] at hs
  have hany : (k == .any) = false := by
    cases k <;> simp_all [Kind.isComposite]
  cases t with
  | leaf l g =>
    simp only [acceptsAt, same, hany, isEmpty, Bool.false_and, Bool.or_self, Bool.and_false,
      Bool.false_eq_true, false_or, isGeneric, kind, false_iff, not_and]
    rintro rfl h
    simp [hs.1] at h
  | of l g u => simp [acceptsAt, hany, isGeneric, elem]

/-- What is under the slot's own type goes into the slot. -/
theorem acceptsAt_of_same_of_under (hs : slot.concrete) (h : slot.same u) (ht : t.under u) :
    slot.acceptsAt t top stored := by
  induction slot generalizing t u top stored with
  | leaf k f =>
    refine acceptsAt_of_same ?_
    cases u with
    | of => cases h
    | leaf =>
      cases t with
      | of => cases ht
      | leaf => simp_all [same, under]
  | of k f e ih =>
    have hk : k = t.kind := (kind_eq_of_same h).trans (kind_eq_of_under ht).symm
    refine (acceptsAt_of hs).2 (.inr ⟨hk, ?_⟩)
    simp only [concrete, Bool.and_eq_true] at hs
    cases u with
    | leaf => cases h
    | of l g u =>
      cases t with
      | leaf => cases ht
      | of m f' s =>
        simp only [same, Bool.and_eq_true, beq_iff_eq] at h
        simp only [under, Bool.and_eq_true, Bool.or_eq_true, beq_iff_eq] at ht
        refine ht.2.imp (fun hn => ?_) fun ht => ⟨rfl, ih hs.2 h.2 ht⟩
        have hk : k = m := hk
        simp [isEmpty, ← hk, hs.1, show s.kind = .none from kind_eq_of_same hn]

/-- A slot that accepts a type accepts what is under it. -/
theorem acceptsAt_of_under (hs : slot.concrete) (hst : stored' → stored) (h : slot.acceptsAt u top stored)
    (ht : t.under u) : slot.acceptsAt t top stored' := by
  induction slot generalizing t u top stored stored' with
  | leaf k f =>
    rcases (acceptsAt_leaf hs).1 h with h | ⟨hk, h⟩
    · exact acceptsAt_of_same_of_under hs h ht
    · refine (acceptsAt_leaf hs).2 (.inr ⟨hk, ?_⟩)
      simp only [anyTakes, Bool.and_eq_true, bne_iff_ne, ne_eq, Bool.or_eq_true, Bool.not_eq_true',
        Bool.or_eq_false_iff] at h ⊢
      rw [kind_eq_of_under ht]
      refine ⟨h.1, h.2.imp id fun hst' => ⟨?_, ?_⟩⟩
      · exact Bool.eq_false_iff.2 fun h => Bool.eq_false_iff.1 hst'.1 (hst h)
      · exact Bool.eq_false_iff.2 fun h => Bool.eq_false_iff.1 hst'.2 (isFixed_of_under ht h)
  | of k f e ih =>
    rcases (acceptsAt_of hs).1 h with h | ⟨hk, h⟩
    · exact acceptsAt_of_same_of_under hs h ht
    · refine (acceptsAt_of hs).2 (.inr ⟨hk.trans (kind_eq_of_under ht).symm, ?_⟩)
      simp only [concrete, Bool.and_eq_true] at hs
      have hfixed := isFixed_of_under ht
      match t, u with
      | leaf l g, leaf m g' =>
        have hk : k = m := hk
        rcases h with h | ⟨hg, -⟩
        · cases h
        · simp [isGeneric, ← hk, hs.1] at hg
      | of l g s, of m g' u =>
        have hk : k = m := hk
        simp only [under, Bool.and_eq_true, Bool.or_eq_true, beq_iff_eq] at ht
        simp only [isEmpty, Bool.and_eq_true, beq_iff_eq, ht.1.1, ← hk, hs.1, true_and] at h ⊢
        rcases ht.2 with hn | hsu
        · exact .inl (kind_eq_of_same hn)
        · refine h.imp (kind_eq_of_under hsu).trans fun h => ⟨rfl, ih hs.2 ?_ h.2 hsu⟩
          simpa using fun h => h.imp hst hfixed

/-- A value that lives in storage goes below a slot only if it has the type of the slot. -/
theorem same_of_acceptsAt_stored (hs : slot.concrete) (ht : t.settled) (h : slot.acceptsAt t false true) :
    slot.same t := by
  induction slot generalizing t with
  | leaf k f =>
    rcases (acceptsAt_leaf hs).1 h with h | ⟨-, h⟩
    · exact h
    · simp [anyTakes] at h
  | of k f e ih =>
    rcases (acceptsAt_of hs).1 h with h | ⟨hk, h | ⟨hg, h⟩⟩
    · exact h
    · rw [isEmpty_of_settled ht] at h
      cases h
    · cases t with
      | leaf l g =>
        have hk : k = l := hk
        simp only [concrete, Bool.and_eq_true] at hs
        simp [isGeneric, ← hk, hs.1] at hg
      | of l g u =>
        have hk : k = l := hk
        simp only [settled, concrete, Bool.and_eq_true] at ht hs
        simp [same, hk, ih hs.2 ht.2 h]

/-- A slot that accepts a rigid type has it, or is of type `any`. -/
theorem same_of_acceptsAt_rigid (hs : slot.concrete) (ht : t.rigid) (h : slot.acceptsAt t top stored) :
    slot.same t ∨ slot.kind = .any := by
  cases slot with
  | leaf k f => exact ((acceptsAt_leaf hs).1 h).imp id And.left
  | of k f e =>
    rcases (acceptsAt_of hs).1 h with h | ⟨hk, h⟩
    · exact .inl h
    · simp only [concrete, Bool.and_eq_true] at hs
      simp only [rigid, isComposite, ← hk, hs.1, Bool.not_true, Bool.false_or, Bool.and_eq_true] at ht
      rw [isEmpty_of_settled ht.2, ht.1, Bool.or_true] at h
      obtain ⟨hg, h⟩ := h.resolve_left Bool.false_ne_true
      cases t with
      | leaf l g =>
        have hk : k = l := hk
        simp [isGeneric, ← hk, hs.1] at hg
      | of l g u =>
        have hk : k = l := hk
        simp only [settled, Bool.and_eq_true] at ht
        simp [same, hk, same_of_acceptsAt_stored hs.2 ht.2.2 h]

/-- A slot of an empty type accepts values of that type only. -/
theorem same_of_acceptsAt_isEmpty (hs : slot.concrete) (ht : t.proper) (he : slot.isEmpty)
    (h : slot.acceptsAt t top stored) : slot.same t := by
  have hnone {u : Ty} (hu : u.proper) (hk : u.kind = .none) : none.same u :=
    same_of_kind_eq rfl hu hk.symm rfl
  cases slot with
  | leaf => cases he
  | of k f e =>
    rcases (acceptsAt_of hs).1 h with h | ⟨hk, h⟩
    · exact h
    simp only [concrete, Bool.and_eq_true] at hs
    simp only [isEmpty, Bool.and_eq_true, beq_iff_eq] at he
    obtain ⟨g', rfl⟩ := same_leaf.1 (same_symm (hnone (proper_of_concrete hs.2) he.2))
    cases t with
    | leaf l g =>
      have hk : k = l := hk
      simp [isEmpty, isGeneric, ← hk, hs.1] at h
    | of l g u =>
      have hk : k = l := hk
      simp only [proper, Bool.and_eq_true] at ht
      have hu : (leaf .none g').same u := by
        rcases h with h | ⟨-, h⟩
        · exact same_trans (u := none) rfl (hnone ht.2 (kind_elem_of_isEmpty h))
        · rcases (acceptsAt_leaf rfl).1 h with h | ⟨h, -⟩
          · exact h
          · cases h
      rw [same, hk, beq_self_eq_true, Bool.true_and]
      exact hu

end Ty

namespace Expr

open Ty

mutual

/-- Whether the types in an expression tell what retyping has to know: elements and operands are under the
type of their literal, and every other array or map is in storage with a type without anything empty. -/
def pliable : Expr → Bool
  | array m _ elems => m.ty.kind == .array && !m.ty.isFixed &&
      elems.all (fun e => e.ty.kind != .none && e.ty.under m.ty.elem) && allPliable elems
  | map m _ pairs => m.ty.kind == .map && !m.ty.isFixed &&
      pairs.all (fun (_, e) => e.ty.kind != .none && e.ty.under m.ty.elem) && pairsPliable pairs
  | group m inner => m.ty == inner.ty && inner.pliable
  | binary m _ _ left right => m.ty.rigid || (!m.ty.isFixed && left.ty.under m.ty && right.ty.under m.ty &&
      left.pliable && right.pliable)
  | e => e.ty.rigid

def allPliable : List Expr → Bool
  | [] => true
  | e :: es => e.pliable && allPliable es

def pairsPliable : List (String × Expr) → Bool
  | [] => true
  | (_, e) :: ps => e.pliable && pairsPliable ps

end

mutual

/-- In a slot the expression has the type of the slot, and where it is retyped, so have its parts: elements
that of the slot's elements, and what is in parentheses and operands that of the slot. -/
def Reaches (slot : Ty) : Expr → Prop
  | array m layout elems => slot.same ((array m layout elems).wrap slot).ty ∧
      (fit m.ty slot = .retyped → AllReach slot.elem elems)
  | map m layout pairs => slot.same ((map m layout pairs).wrap slot).ty ∧
      (fit m.ty slot = .retyped → PairsReach slot.elem pairs)
  | group m inner => slot.same ((group m inner).wrap slot).ty ∧
      (fit m.ty slot = .retyped → inner.Reaches slot)
  | binary m op tight left right => slot.same ((binary m op tight left right).wrap slot).ty ∧
      (fit m.ty slot = .retyped → left.Reaches slot ∧ right.Reaches slot)
  | e => slot.same (e.wrap slot).ty

def AllReach (slot : Ty) : List Expr → Prop
  | [] => True
  | e :: es => e.Reaches slot ∧ AllReach slot es

def PairsReach (slot : Ty) : List (String × Expr) → Prop
  | [] => True
  | (_, e) :: ps => e.Reaches slot ∧ PairsReach slot ps

end

variable {slot t : Ty} {top : Bool}

/-- What a slot accepts goes into it as it is if it has the slot's type; else it is wrapped for a slot of type
`any`, or can be retyped. -/
theorem fit_of_acceptsAt (hs : slot.concrete) (hp : t.proper) (ht : t.rigid ∨ t.isFixed = false)
    (h : slot.acceptsAt t top false) :
    fit t slot = .unchanged ∧ slot.same t ∨ fit t slot = .wrapped ∧ slot.kind = .any ∨
      fit t slot = .retyped ∧ ¬ t.rigid ∧ (t.isEmpty ∨ slot.elem.acceptsAt t.elem false false) := by
  unfold fit
  by_cases hsame : slot.same t
  · exact .inl ⟨by simp [hsame], hsame⟩
  have he : slot.isEmpty = false := by
    cases he : slot.isEmpty with
    | false => rfl
    | true => exact absurd (same_of_acceptsAt_isEmpty hs hp he h) hsame
  rw [Bool.not_eq_true] at hsame
  simp only [hsame, isGeneric_of_concrete hs, he, Bool.or_self, Bool.false_eq_true, ↓reduceIte]
  refine .inr ?_
  by_cases hany : slot.kind = .any
  · exact .inl ⟨by simp [isAny, hany], hany⟩
  have hrigid : ¬ t.rigid := fun hr => by
    rcases same_of_acceptsAt_rigid hs hr h with h | h
    · rw [h] at hsame; cases hsame
    · exact hany h
  have hfixed := ht.resolve_left hrigid
  have helem : slot.kind = t.kind ∧ (t.isEmpty ∨ slot.elem.acceptsAt t.elem false false) := by
    cases slot with
    | leaf k f =>
      rcases (acceptsAt_leaf hs).1 h with h | ⟨h, -⟩
      · rw [h] at hsame; cases hsame
      · exact absurd h hany
    | of k f e =>
      rcases (acceptsAt_of hs).1 h with h | ⟨hk, h⟩
      · rw [h] at hsame; cases hsame
      · rw [hfixed] at h
        exact ⟨hk, h.imp id And.right⟩
  refine .inr ⟨?_, hrigid, helem.2⟩
  rw [helem.1] at hany
  simp [isAny, hany, hfixed, helem.1]

/-- What is retyped is no rigid type, and its elements fit those of the slot. -/
theorem elem_of_acceptsAt_retyped (hs : slot.concrete) (hp : t.proper) (ht : t.rigid ∨ t.isFixed = false)
    (h : slot.acceptsAt t top false) (hf : fit t slot = .retyped) :
    ¬ t.rigid ∧ (t.isEmpty ∨ slot.elem.acceptsAt t.elem false false) := by
  rcases fit_of_acceptsAt hs hp ht h with ⟨h', -⟩ | ⟨h', -⟩ | ⟨-, h'⟩
  · cases h'.symm.trans hf
  · cases h'.symm.trans hf
  · exact h'

/-- Whether parts of the expression are retyped with it. -/
def hasParts : Expr → Bool
  | array .. | map .. | binary .. | group .. => true
  | _ => false

theorem ty_wrap_of_unchanged {e : Expr} (h : fit e.ty slot = .unchanged) : (e.wrap slot).ty = e.ty := by
  cases e with
  | array | map | binary | group =>
    unfold wrap
    split
    · rfl
    · next h' => cases h'.symm.trans h
    · next h' => cases h'.symm.trans h
  | _ =>
    unfold wrap
    split
    · next h' => cases h'.symm.trans h
    · rfl

theorem ty_wrap_of_wrapped {e : Expr} (h : fit e.ty slot = .wrapped) : (e.wrap slot).ty = .any := by
  cases e with
  | array | map | binary | group =>
    unfold wrap
    split
    · next h' => cases h'.symm.trans h
    · rfl
    · next h' => cases h'.symm.trans h
  | _ =>
    unfold wrap
    split
    · rfl
    · next h' => exact absurd h h'

theorem ty_wrap_of_retyped {e : Expr} (h : fit e.ty slot = .retyped) (hparts : e.hasParts) :
    (e.wrap slot).ty = slot.unfixed := by
  cases e with
  | array | map | binary | group =>
    unfold wrap
    split
    · next h' => cases h'.symm.trans h
    · next h' => cases h'.symm.trans h
    · rfl
  | _ => cases hparts

theorem rigid_of_pliable {e : Expr} (he : e.pliable) (hparts : ¬ e.hasParts) : e.ty.rigid := by
  cases e <;> first | exact he | exact absurd rfl hparts

/-- A type that lives in storage does not change. -/
theorem rigid_or_of_pliable {e : Expr} (he : e.pliable) : e.ty.rigid ∨ e.ty.isFixed = false := by
  match e with
  | .array m layout elems | .map m layout elems =>
    simp only [pliable, Bool.and_eq_true, Bool.not_eq_true'] at he
    exact .inr he.1.1.2
  | .group m inner =>
    simp only [pliable, Bool.and_eq_true, beq_iff_eq] at he
    have hty : (group m inner).ty = inner.ty := he.1
    rw [hty]
    exact rigid_or_of_pliable he.2
  | .binary m op tight left right =>
    simp only [pliable, Bool.or_eq_true, Bool.and_eq_true, Bool.not_eq_true'] at he
    exact he.imp id fun h => h.1.1.1.1
  | .var .. | .num .. | .str .. | .bool .. | .call .. | .unary .. | .index .. | .slice .. | .dot ..
  | .assert .. | .any .. => exact .inl he

/-- An expression whose type tells enough has the type of the slot afterwards. -/
theorem same_wrap {e : Expr} (hs : slot.concrete) (hp : e.ty.proper) (he : e.pliable)
    (h : slot.acceptsAt e.ty top false) : slot.same (e.wrap slot).ty := by
  rcases fit_of_acceptsAt hs hp (rigid_or_of_pliable he) h with ⟨hf, h⟩ | ⟨hf, h⟩ | ⟨hf, h, -⟩
  · rw [ty_wrap_of_unchanged hf]
    exact h
  · rw [ty_wrap_of_wrapped hf]
    exact same_of_kind_eq (proper_of_concrete hs) rfl h (by rw [h]; rfl)
  · rw [ty_wrap_of_retyped hf (Decidable.byContradiction fun hn => h (rigid_of_pliable he hn))]
    exact same_unfixed slot

/-- What a slot for a literal accepts it accepts of the elements, too. -/
theorem acceptsAt_elem {e : Expr} (hs : slot.concrete) (hp : t.proper)
    (h : t.isEmpty ∨ slot.elem.acceptsAt t.elem false false) (hn : e.ty.kind ≠ .none)
    (he : e.ty.under t.elem) : e.ty.proper ∧ slot.elem.acceptsAt e.ty false false := by
  refine ⟨proper_of_under he (proper_elem hp), ?_⟩
  rcases h with h | h
  · exact absurd ((kind_eq_of_under he).trans (kind_elem_of_isEmpty h)) hn
  · exact acceptsAt_of_under (concrete_elem hs) id h he

mutual

theorem reaches_of_acceptsAt {slot : Ty} {top : Bool} {e : Expr} (hs : slot.concrete) (hp : e.ty.proper) (he : e.pliable)
    (h : slot.acceptsAt e.ty top false) : e.Reaches slot := by
  have hsame := same_wrap hs hp he h
  have hretyped := elem_of_acceptsAt_retyped hs hp (rigid_or_of_pliable he) h
  match e with
  | .array m layout elems =>
    refine ⟨hsame, fun hf => ?_⟩
    simp only [pliable, Bool.and_eq_true, List.all_eq_true, bne_iff_ne] at he
    exact allReach_of_acceptsAt (concrete_elem hs) he.2 fun e' he' =>
      acceptsAt_elem hs hp (hretyped hf).2 (he.1.2 e' he').1 (he.1.2 e' he').2
  | .map m layout pairs =>
    refine ⟨hsame, fun hf => ?_⟩
    simp only [pliable, Bool.and_eq_true, List.all_eq_true, bne_iff_ne] at he
    exact pairsReach_of_acceptsAt (concrete_elem hs) he.2 fun p hp' =>
      acceptsAt_elem hs hp (hretyped hf).2 (he.1.2 p hp').1 (he.1.2 p hp').2
  | .group m inner =>
    refine ⟨hsame, fun hf => ?_⟩
    simp only [pliable, Bool.and_eq_true, beq_iff_eq] at he
    have hty : (group m inner).ty = inner.ty := he.1
    rw [hty] at hp h
    exact reaches_of_acceptsAt hs hp he.2 h
  | .binary m op tight left right =>
    refine ⟨hsame, fun hf => ?_⟩
    simp only [pliable, Bool.or_eq_true, Bool.and_eq_true] at he
    obtain ⟨⟨⟨⟨-, hl⟩, hr⟩, hl'⟩, hr'⟩ := he.resolve_left (hretyped hf).1
    exact ⟨reaches_of_acceptsAt hs (proper_of_under hl hp) hl' (acceptsAt_of_under hs id h hl),
      reaches_of_acceptsAt hs (proper_of_under hr hp) hr' (acceptsAt_of_under hs id h hr)⟩
  | .var .. | .num .. | .str .. | .bool .. | .call .. | .unary .. | .index .. | .slice .. | .dot ..
  | .assert .. | .any .. => exact hsame

theorem allReach_of_acceptsAt {slot : Ty} {es : List Expr} (hs : slot.concrete) (hes : allPliable es)
    (h : ∀ e ∈ es, e.ty.proper ∧ slot.acceptsAt e.ty false false) : AllReach slot es := by
  match es with
  | [] => trivial
  | e :: es =>
    simp only [allPliable, Bool.and_eq_true] at hes
    have he := h e List.mem_cons_self
    exact ⟨reaches_of_acceptsAt hs he.1 hes.1 he.2,
      allReach_of_acceptsAt hs hes.2 fun e he => h e (List.mem_cons_of_mem _ he)⟩

theorem pairsReach_of_acceptsAt {slot : Ty} {ps : List (String × Expr)} (hs : slot.concrete) (hps : pairsPliable ps)
    (h : ∀ p ∈ ps, p.2.ty.proper ∧ slot.acceptsAt p.2.ty false false) : PairsReach slot ps := by
  match ps with
  | [] => trivial
  | (k, e) :: ps =>
    simp only [pairsPliable, Bool.and_eq_true] at hps
    have he := h (k, e) List.mem_cons_self
    exact ⟨reaches_of_acceptsAt hs he.1 hps.1 he.2,
      pairsReach_of_acceptsAt hs hps.2 fun p hp => h p (List.mem_cons_of_mem _ hp)⟩

end

/-- Where types tell enough, what a slot accepts gets the type of the slot, with all parts that are retyped. -/
theorem reaches_of_accepts {e : Expr} (hs : slot.concrete) (hp : e.ty.proper) (he : e.pliable)
    (h : slot.accepts e.ty) : e.Reaches slot :=
  reaches_of_acceptsAt hs hp he h

/-- An array of an array of numbers and an empty one, in parentheses. -/
def nestedLiteral : Expr :=
  .group ⟨default, .array (.array .num)⟩ (.array ⟨default, .array (.array .num)⟩ []
    [.array ⟨default, .array .num⟩ [] [.num ⟨default, .num⟩ 1], .array ⟨default, .emptyArray⟩ [] []])

theorem nestedLiteral_reaches : nestedLiteral.Reaches (.array (.array .any)) :=
  reaches_of_accepts (by decide) (by decide) (by decide) (by decide)

end Expr

/-- The types of both sides of an assignment. -/
def Stmt.sides? : Stmt → Option (Ty × Ty)
  | .assign _ _ target value => some (target.ty, value.ty)
  | _ => none

/-- A slice of texts is assigned to a variable for arrays of any elements. -/
def sliceSource : String :=
  "a := [\"s\"]\nb:[]any\nb = a[:]\nprint b\n"

/-- The slot accepts the type of the slice, which the expression keeps in the slot. -/
theorem sliceSource_mistyped :
    ((Program.parse sliceSource .standard).toOption.map fun p => p.stmts.filterMap Stmt.sides?) =
      some [(.of .array true .any, .array .string)] ∧
    (Ty.of .array true .any).accepts (.array .string) ∧ ¬ (Ty.of .array true .any).same (.array .string) := by
  decide +kernel

end TinyScript
