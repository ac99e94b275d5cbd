import TinyScript.Parsing.Scopes

/-!
# Look-ups in open scopes

Which type a name has in open scopes (`Scopes.ty?`), and that reading a variable changes nothing but
that it is marked as read (`Scopes.asRead`).
-/

namespace TinyScript

namespace Scope

/-- The type of a variable of the scope. -/
def ty? (s : Scope) (name : String) : Option Ty :=
  (s.vars.find? (·.var.name == name)).map (·.var.ty)

/-- The scope with all variables taken as read. -/
def asRead (s : Scope) : Scope :=
  { s with vars := s.vars.map fun v => { v with used := true } }

@[simp] theorem ty?_asRead (s : Scope) : s.asRead.ty? = s.ty? := by
  funext name
  simp [ty?, asRead, Array.find?_map, Function.comp_def]

@[simp] theorem declares_asRead (s : Scope) (name : String) :
    s.asRead.declares name = s.declares name := by
  simp [declares, asRead]

/-- A scope declares the names that have a type in it. -/
theorem declares_eq (s : Scope) (name : String) : s.declares name = (s.ty? name).isSome := by
  rw [declares, ty?, Option.isSome_map, Bool.eq_iff_iff, Array.any_eq_true', Array.find?_isSome]

theorem of_read? {s s' : Scope} {name : String} {v : Var} (h : s.read? name = some (v, s')) :
    v.name = name ∧ s.ty? name = some v.ty ∧ s'.asRead = s.asRead := by
  unfold read? at h
  cases hi : s.vars.findIdx? (·.var.name == name) with
  | none => rw [hi] at h; cases h
  | some i =>
    rw [hi] at h
    obtain ⟨w, hw, heq⟩ := Option.map_eq_some_iff.1 h
    cases heq
    have hfind : s.vars.find? (·.var.name == name) = some w := by
      rw [Array.find?_eq_bind_findIdx?_getElem?, hi]
      exact hw
    refine ⟨by simpa using Array.find?_some hfind, by rw [ty?, hfind]; rfl, ?_⟩
    have hvars : (s.vars.modify i fun v => { v with used := true }).map
        (fun v => { v with used := true }) = s.vars.map fun v => { v with used := true } := by
      refine Array.ext (by simp) fun j hj hj' => ?_
      simp only [Array.getElem_map, Array.getElem_modify]
      split <;> rfl
    simp [asRead, hvars]

theorem ty?_of_read?_eq_none {s : Scope} {name : String} (h : s.read? name = none) :
    s.ty? name = none := by
  unfold read? at h
  rw [ty?, Array.find?_eq_bind_findIdx?_getElem?]
  cases hi : s.vars.findIdx? (·.var.name == name) with
  | none => rfl
  | some i =>
    rw [hi] at h
    simpa using h

end Scope

namespace Scopes

/-- The scopes with all variables taken as read. -/
def asRead (ss : Scopes) : Scopes :=
  ss.map Scope.asRead

/-- The type of the variable of the innermost scope that has one of this name. -/
def ty? (ss : Scopes) (name : String) : Option Ty :=
  ss.findSome? (·.ty? name)

@[simp] theorem ty?_asRead (ss : Scopes) : ss.asRead.ty? = ss.ty? := by
  funext name
  simp [ty?, asRead, List.findSome?_map, Function.comp_def]

@[simp] theorem asRead_cons (s : Scope) (ss : Scopes) : asRead (s :: ss) = s.asRead :: asRead ss :=
  rfl

@[simp] theorem asRead_tail (ss : Scopes) : asRead ss.tail = (asRead ss).tail := by
  cases ss <;> rfl

@[simp] theorem result?_asRead (ss : Scopes) : ss.asRead.result? = ss.result? := by
  cases ss <;> rfl

@[simp] theorem inLoop_asRead (ss : Scopes) : ss.asRead.inLoop = ss.inLoop := by
  simp [inLoop, asRead, Function.comp_def, Scope.asRead]

@[simp] theorem declares_asRead (ss : Scopes) (name : String) :
    ss.asRead.declares name = ss.declares name := by
  cases ss with
  | nil => rfl
  | cons s ss => exact s.declares_asRead name

theorem asRead_enterWith (ss : Scopes) (kind : ScopeKind) (result : Option Ty) :
    (ss.enterWith kind result).asRead = ss.asRead.enterWith kind result := by
  simp [enterWith, Scope.asRead]

theorem asRead_declare (ss : Scopes) (v : Var) (used : Bool) :
    (ss.declare v used).asRead = ss.asRead.declare v true := by
  unfold declare
  split
  · rfl
  · cases ss with
    | nil => rfl
    | cons s ss => simp [Scope.asRead]

theorem of_find? {ss ss' : Scopes} {name : String} {v : Var} (h : ss.find? name = some (v, ss')) :
    v.name = name ∧ ss.ty? name = some v.ty ∧ ss'.asRead = ss.asRead := by
  induction ss generalizing ss' with
  | nil => cases h
  | cons s ss ih =>
    unfold find? at h
    split at h
    · next w s' hs =>
      cases h
      obtain ⟨hname, hty, hread⟩ := Scope.of_read? hs
      exact ⟨hname, by simp [ty?, hty], by rw [asRead_cons, asRead_cons, hread]⟩
    · next hs =>
      obtain ⟨⟨w, ss''⟩, hw, heq⟩ := Option.map_eq_some_iff.1 h
      cases heq
      obtain ⟨hname, hty, hread⟩ := ih hw
      refine ⟨hname, ?_, by rw [asRead_cons, asRead_cons, hread]⟩
      rw [ty?, List.findSome?_cons, Scope.ty?_of_read?_eq_none hs]
      exact hty

theorem of_read? {ss ss' : Scopes} {name : String} {v : Var} (h : ss.read? name = some (v, ss')) :
    name ≠ "_" ∧ v.name = name ∧ ss.ty? name = some v.ty ∧ ss'.asRead = ss.asRead := by
  unfold read? at h
  split at h
  · cases h
  · next hname => exact ⟨hname, of_find? h⟩

/-! ### Declarations -/

theorem declare_anonymous (ss : Scopes) {v : Var} (used : Bool) (hv : v.name = "_") :
    ss.declare v used = ss := by
  unfold declare
  exact if_pos hv

theorem declare_cons (s : Scope) (ss : Scopes) {v : Var} (used : Bool) (hv : v.name ≠ "_") :
    declare (s :: ss) v used = { s with vars := s.vars.push ⟨v, used⟩ } :: ss := by
  unfold declare
  exact if_neg hv

theorem ty?_declare (s : Scope) (ss : Scopes) (v : Var) (used : Bool) (hv : v.name ≠ "_")
    (hnew : s.declares v.name = false) (name : String) :
    ty? (declare (s :: ss) v used) name = if name = v.name then some v.ty else ty? (s :: ss) name := by
  have hs : ({ s with vars := s.vars.push ⟨v, used⟩ } : Scope).ty? name =
      if name = v.name then some v.ty else s.ty? name := by
    rw [Scope.declares_eq, Option.isSome_eq_false_iff, Option.isNone_iff_eq_none, Scope.ty?,
      Option.map_eq_none_iff] at hnew
    rw [Scope.ty?, Array.find?_push]
    by_cases hname : name = v.name
    · subst hname
      simp [hnew]
    · have hname' : (v.name == name) = false := beq_eq_false_iff_ne.2 (Ne.symm hname)
      simp [hname', hname, Scope.ty?]
  rw [declare_cons s ss used hv, ty?, ty?, List.findSome?_cons, List.findSome?_cons, hs]
  by_cases hname : name = v.name <;> simp [hname]

end Scopes

end TinyScript
