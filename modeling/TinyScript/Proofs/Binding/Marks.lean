import Mathlib.Data.List.Induction
import TinyScript.Proofs.Binding.Closed
import TinyScript.Proofs.Parsing.Recovery

/-!
# Variables that are marked as read

Reading a variable marks the nearest one of its name. What has been read since a scope was opened tells
which variables of that scope can be marked when it is closed, and what is marked in the scopes around
(`Scopes.declareAll_markAll`).
-/

namespace TinyScript

namespace Scope

/-- Marks the variable of a name as read. -/
def mark (s : Scope) (name : String) : Scope :=
  ((s.read? name).map Prod.snd).getD s

theorem isSome_read? (s : Scope) (name : String) : (s.read? name).isSome = s.declares name := by
  rw [declares_eq]
  cases h : s.read? name with
  | none => rw [ty?_of_read?_eq_none h]; rfl
  | some r => rw [(of_read? h).2.1]; rfl

theorem mark_of_read? {s t : Scope} {name : String} {v : Var} (h : s.read? name = some (v, t)) :
    s.mark name = t := by
  rw [mark, h]
  rfl

theorem asRead_mark (s : Scope) (name : String) : (s.mark name).asRead = s.asRead := by
  unfold mark
  cases h : s.read? name with
  | none => rfl
  | some r => exact (of_read? h).2.2

theorem declares_mark (s : Scope) (name : String) : (s.mark name).declares = s.declares := by
  funext other
  rw [← declares_asRead, asRead_mark, declares_asRead]

/-- Only a variable of that name is marked. -/
theorem exists_mem_mark {s : Scope} {w : ScopeVar} (hw : w ∈ s.vars) (name : String) :
    ∃ w' ∈ (s.mark name).vars, w'.var = w.var ∧ (w'.used → w.used ∨ w.var.name = name) := by
  unfold mark read?
  split
  · exact ⟨w, hw, rfl, .inl⟩
  next i hi =>
  obtain ⟨hlt, hname, -⟩ := Array.findIdx?_eq_some_iff_getElem.1 hi
  rw [Array.getElem?_eq_getElem hlt]
  obtain ⟨j, hj, rfl⟩ := Array.mem_iff_getElem.1 hw
  refine ⟨_, Array.getElem_mem (i := j) (by simpa using hj), ?_⟩
  simp only [Option.map_some, Option.getD_some, Array.getElem_modify]
  split
  · next hij =>
    subst hij
    exact ⟨rfl, fun _ => .inr (by simpa using hname)⟩
  · exact ⟨rfl, .inl⟩

end Scope

namespace Scopes
variable {ss : Scopes} {s : Scope} {os us : List Occurrence}

/-- Marks the nearest variable of a name as read. -/
def mark (ss : Scopes) (name : String) : Scopes :=
  ((ss.find? name).map Prod.snd).getD ss

/-- Marks the variables that occurrences refer to. -/
def markAll (ss : Scopes) (os : List Occurrence) : Scopes :=
  os.foldl (fun ss o => ss.mark o.name) ss

theorem mark_of_read? {ss' : Scopes} {name : String} {v : Var} (h : ss.read? name = some (v, ss')) :
    ss.mark name = ss' := by
  unfold read? at h
  split at h
  · cases h
  · rw [mark, h]
    rfl

theorem mark_cons (s : Scope) (ss : Scopes) (name : String) :
    mark (s :: ss) name = if s.declares name then s.mark name :: ss else s :: mark ss name := by
  rw [mark, find?, ← s.isSome_read?]
  cases h : s.read? name with
  | some r => simp [Scope.mark, h]
  | none => cases hss : find? ss name <;> simp [mark, hss]

theorem asRead_mark (ss : Scopes) (name : String) : (ss.mark name).asRead = ss.asRead := by
  unfold mark
  cases h : ss.find? name with
  | none => rfl
  | some r => exact (of_find? h).2.2

@[simp] theorem markAll_nil (ss : Scopes) : ss.markAll [] = ss := rfl

theorem markAll_append (ss : Scopes) (os us : List Occurrence) :
    ss.markAll (os ++ us) = (ss.markAll os).markAll us :=
  List.foldl_append

theorem asRead_markAll (ss : Scopes) (os : List Occurrence) : (ss.markAll os).asRead = ss.asRead := by
  induction os generalizing ss with
  | nil => rfl
  | cons o os ih => exact (ih _).trans (asRead_mark ss o.name)

@[simp] theorem ty?_markAll (ss : Scopes) (os : List Occurrence) : (ss.markAll os).ty? = ss.ty? := by
  rw [← ty?_asRead, asRead_markAll, ty?_asRead]

@[simp] theorem result?_markAll (ss : Scopes) (os : List Occurrence) :
    (ss.markAll os).result? = ss.result? := by
  rw [← result?_asRead, asRead_markAll, result?_asRead]

@[simp] theorem declares_markAll (ss : Scopes) (os : List Occurrence) (name : String) :
    (ss.markAll os).declares name = ss.declares name := by
  rw [← declares_asRead, asRead_markAll, declares_asRead]

end Scopes

/-! ### A scope and those around it -/

/-- The scope `t` has the variables of `s`, of which only those named in `os` have been marked, and then
the variables `vars`, which have not been. -/
structure Scope.Next (s : Scope) (os : List Occurrence) (vars : List Var) (t : Scope) : Prop where
  declares : ∀ name, t.declares name = (s.declares name || vars.any (·.binds name))
  old : ∀ w ∈ s.vars, ∃ w' ∈ t.vars, w'.var = w.var ∧ (w'.used → w.used ∨ ∃ o ∈ os, o.name = w.var.name)
  new : ∀ v ∈ vars, v.name ≠ "_" → ⟨v, false⟩ ∈ t.vars

namespace Scope.Next
variable {s t u : Scope} {os us : List Occurrence} {vars more : List Var}

theorem refl (s : Scope) : s.Next [] [] s :=
  ⟨fun _ => by simp, fun w hw => ⟨w, hw, rfl, .inl⟩, nofun⟩

theorem mark (h : s.Next os [] t) (o : Occurrence) : s.Next (os ++ [o]) [] (t.mark o.name) := by
  refine ⟨fun name => by rw [declares_mark, h.declares], fun w hw => ?_, nofun⟩
  obtain ⟨w₁, hw₁, hvar₁, hused₁⟩ := h.old w hw
  obtain ⟨w₂, hw₂, hvar₂, hused₂⟩ := exists_mem_mark hw₁ o.name
  refine ⟨w₂, hw₂, hvar₂.trans hvar₁, fun hused => ?_⟩
  rcases hused₂ hused with h₁ | hname
  · exact (hused₁ h₁).imp_right fun ⟨o', ho', hname⟩ => ⟨o', List.mem_append_left _ ho', hname⟩
  · exact .inr ⟨o, by simp, by rw [← hname, hvar₁]⟩

theorem push (h : s.Next os vars t) (v : Var) (hv : v.name ≠ "_") :
    s.Next os (vars ++ [v]) { t with vars := t.vars.push ⟨v, false⟩ } := by
  refine ⟨fun name => ?_, fun w hw => ?_, fun x hx hname => ?_⟩
  · have hbinds : v.binds name = (v.name == name) := by simp [Var.binds, hv]
    have hdeclares := h.declares name
    rw [Scope.declares] at hdeclares ⊢
    rw [Array.any_push, hdeclares, List.any_append, List.any_cons, List.any_nil, Bool.or_false, hbinds,
      Bool.or_assoc]
  · obtain ⟨w', hw', hrest⟩ := h.old w hw
    exact ⟨w', Array.mem_push_of_mem _ hw', hrest⟩
  · rcases List.mem_append.1 hx with hx | hx
    · exact Array.mem_push_of_mem _ (h.new x hx hname)
    · rw [List.mem_singleton.1 hx]
      exact Array.mem_push_self

theorem anonymous (h : s.Next os vars t) (v : Var) (hv : v.name = "_") : s.Next os (vars ++ [v]) t := by
  refine ⟨fun name => ?_, h.old, fun x hx hname => ?_⟩
  · rw [h.declares, List.any_append]
    simp [Var.binds, hv]
  · rcases List.mem_append.1 hx with hx | hx
    · exact h.new x hx hname
    · rw [List.mem_singleton.1 hx] at hname
      exact absurd hv hname

end Scope.Next

namespace Scopes
variable {s : Scope} {ss : Scopes}

/-- Declares variables in the innermost scope. -/
def declareAll (ss : Scopes) (vars : List Var) : Scopes :=
  vars.foldl (fun ss v => ss.declare v false) ss

/-- Occurrences mark the variables of the innermost scope that they name, and refer to the scopes around
where it has no variable of their name. -/
theorem exists_markAll (s : Scope) (ss : Scopes) (os : List Occurrence) :
    ∃ t, markAll (s :: ss) os = t :: ss.markAll (os.filter fun o => !s.declares o.name) ∧
      s.Next os [] t := by
  induction os using List.reverseRecOn with
  | nil => exact ⟨s, rfl, .refl s⟩
  | append_singleton os o ih =>
    obtain ⟨t, hmark, ht⟩ := ih
    have hdeclares : t.declares o.name = s.declares o.name := by simpa using ht.declares o.name
    rw [markAll_append, hmark, List.filter_append]
    by_cases h : s.declares o.name
    · refine ⟨t.mark o.name, ?_, ht.mark o⟩
      simp [markAll, mark_cons, hdeclares, h]
    · refine ⟨t, ?_, ?_⟩
      · simp [markAll, mark_cons, hdeclares, h]
      · refine ⟨ht.declares, fun w hw => ?_, nofun⟩
        obtain ⟨w', hw', hvar, hused⟩ := ht.old w hw
        exact ⟨w', hw', hvar, fun h => (hused h).imp_right fun ⟨o', ho', hname⟩ =>
          ⟨o', List.mem_append_left _ ho', hname⟩⟩

/-- What reading occurrences and then declaring variables does to the innermost scope and to those
around it. -/
theorem exists_declareAll_markAll (s : Scope) (ss : Scopes) (os : List Occurrence) (vars : List Var) :
    ∃ t, declareAll (markAll (s :: ss) os) vars =
      t :: ss.markAll (os.filter fun o => !s.declares o.name) ∧ s.Next os vars t := by
  induction vars using List.reverseRecOn with
  | nil => exact exists_markAll s ss os
  | append_singleton vars v ih =>
    obtain ⟨t, hdeclare, ht⟩ := ih
    have hconcat : declareAll (markAll (s :: ss) os) (vars ++ [v]) =
        (declareAll (markAll (s :: ss) os) vars).declare v false := by simp [declareAll]
    rw [hconcat, hdeclare]
    by_cases hv : v.name = "_"
    · exact ⟨t, declare_anonymous _ _ hv, ht.anonymous v hv⟩
    · exact ⟨_, declare_cons _ _ _ hv, ht.push v hv⟩

end Scopes

end TinyScript
