import TinyScript.Parsing.Program
import TinyScript.Prelude.Standard
import TinyScript.Proofs.Parsing.Statements

/-!
# Signatures that are read

The signatures of all functions are read first. If there are no problems, those of the built-in
functions are still known then, and the others are of types that a program can write
(`Outline.Signed`).
-/

namespace TinyScript

/-- The types of a signature are ones that a program can write, and a parameter that takes any number
of arguments is the only one. -/
structure Signature.Settled (sig : Signature) : Prop where
  params : ∀ x ∈ sig.params, x.ty.settled
  variadic : ∀ x, sig.variadic = some x → x.ty.settled ∧ sig.params = []
  result : sig.result.settled ∨ sig.result.same .none

namespace Builtin

theorem result_settled (b : Builtin) : b.result.settled ∨ b.result.same .none := by
  cases b <;> decide

theorem params_proper (b : Builtin) : ∀ x ∈ b.signature.params, x.ty.proper := by
  cases b <;> decide

theorem variadic_proper (b : Builtin) : ∀ x, b.signature.variadic = some x → x.ty.proper := by
  have h : b.signature.variadic.all (·.ty.proper) := by cases b <;> decide
  intro x hx
  rwa [hx] at h

theorem func?_standard (name : String) :
    Prelude.standard.func? name = (ofName? name).map signature := by
  rw [Prelude.func?, Prelude.standard, List.find?_map]
  rfl

end Builtin

namespace Parsing

/-- All built-in functions are known, and what else is known has been read. -/
structure Outline.Signed (o : Outline) : Prop where
  prelude : o.prelude = .standard
  builtin : ∀ name b, Builtin.ofName? name = some b → o.func? name = some b.signature
  declared : ∀ name sig, o.func? name = some sig → Builtin.ofName? name = none → sig.Settled

namespace Outline.Signed
variable {o : Outline} {name : String} {sig : Signature}

theorem cases (h : o.Signed) (hsig : o.func? name = some sig) :
    (∃ b : Builtin, sig = b.signature) ∨ sig.Settled := by
  cases hb : Builtin.ofName? name with
  | some b => exact .inl ⟨b, Option.some.inj (hsig.symm.trans (h.builtin name b hb))⟩
  | none => exact .inr (h.declared name sig hsig hb)

theorem proper (h : o.Signed) (hvars : ∀ name τ, o.scopes.ty? name = some τ → τ.proper)
    (hreturns : ∀ τ, o.scopes.result? = some τ → τ.settled ∨ τ.same .none) : o.Proper := by
  refine ⟨hvars, hreturns, fun name sig hsig => ?_, fun name sig hsig => ?_, fun name sig hsig => ?_⟩ <;>
    obtain ⟨b, rfl⟩ | hsettled := h.cases hsig
  · exact b.result_settled
  · exact hsettled.result
  · exact b.params_proper
  · exact fun x hx => Ty.proper_of_settled (hsettled.params x hx)
  · exact b.variadic_proper
  · exact fun x hx => Ty.proper_of_settled (hsettled.variadic x hx).1

end Outline.Signed

variable {φ : Prop} {o : Outline}

theorem paramsWithin_keeps (fuel : Nat) (done : Array Var) (hdone : φ → ∀ v ∈ done.toList, v.ty.settled) :
    Keeps φ o (paramsWithin fuel done) fun vs => ∀ v ∈ vs, v.ty.settled := by
  induction fuel generalizing φ done with
  | zero => exact .pure hdone
  | succ fuel ih =>
    refine (Keeps.look (f := State.atLineEnd)).bind fun ended => Keeps.look.bind fun k => ?_
    dsimp only
    split
    · exact .pure fun h => hdone h.1.1
    · refine (Keeps.expect _).bind fun _ => typedVar_keeps.bind fun r => ih (done.push r.1) fun h v hv => ?_
      rw [Array.toList_push, List.mem_append, List.mem_singleton] at hv
      rcases hv with hv | rfl
      · exact hdone h.1.1.1.1 v hv
      · exact h.2.1

/-- The rest of a signature after the type of the result. -/
def signatureEnd (token : Token) (name : String) (result : Ty) : Attempt (Token × Signature) := do
  let params ← paramsWithin (← get).fuel #[]
  let mut fixedParams := params
  let mut variadic := none
  if (← kind) = .dot3 then
    advance
    match params with
    | [v] =>
      fixedParams := []
      variadic := some v
    | _ => report .badVariadic
  expectLineEnd
  nextLine
  return (token, ⟨name, fixedParams, variadic, result⟩)

theorem signature_reads : Reads φ o signature fun r => r.2.Settled := by
  have hend {ψ : Prop} (token : Token) (name : String) (params : List Var) (variadic : Option Var)
      (result : Ty) (hψ : ψ → Signature.Settled ⟨name, params, variadic, result⟩) : Reads ψ o (do
        expectLineEnd
        nextLine
        return (token, (⟨name, params, variadic, result⟩ : Signature))) fun r => r.2.Settled :=
    (Reads.lift Keeps.expectLineEnd).bind fun _ => (Reads.move State.moves_nextLine).bind fun _ =>
      .pure fun h => hψ h.1.1
  have hparams {ψ : Prop} (token : Token) (name : String) (result : Ty)
      (hψ : ψ → result.settled ∨ result.same .none) : Reads ψ o (signatureEnd token name result)
        fun r => r.2.Settled := by
    refine (Reads.lift Keeps.state).bind fun s =>
      (Reads.lift (paramsWithin_keeps _ _ fun _ v hv => by cases hv)).bind fun params => Reads.look.bind fun k => ?_
    dsimp only
    split
    · refine (Reads.move State.moves_advance).bind fun _ => ?_
      split
      · refine hend _ _ _ _ _ fun h => ⟨nofun, fun x hx => ?_, hψ h.1.1.1.1⟩
        cases hx
        exact ⟨h.1.1.2 _ List.mem_cons_self, rfl⟩
      · exact (Reads.lift (Keeps.reportHere _ (A := fun _ => False))).bind fun _ => hend _ _ _ _ _ fun h => h.2.elim
    · exact hend _ _ _ _ _ fun h => ⟨h.1.2, nofun, hψ h.1.1.1⟩
  refine (Reads.look (f := State.cur)).bind fun token => (Reads.move State.moves_advance).bind fun _ =>
    (Reads.orNextLine (.require _)).bind fun _ => (Reads.look (f := State.cur)).bind fun name =>
    (Reads.move State.moves_advance).bind fun _ => Reads.look.bind fun k => ?_
  dsimp only
  split
  · refine (Reads.move State.moves_advance).bind fun _ => (Reads.lift type_keeps).bind fun result => ?_
    split
    · exact (Reads.look (f := State.cur)).bind fun _ => (Reads.lift (Keeps.reportAt _ _ (A := fun _ => False))).bind
        fun _ => hparams _ _ _ fun h => h.2.elim
    · next hk => exact hparams _ _ _ fun h => .inl (h.2.resolve_left hk)
  · exact hparams _ _ _ fun _ => .inr rfl

/-- A new name leaves the others as they are. -/
theorem Outline.Signed.add {sig : Signature} (h : o.Signed) (hsig : sig.Settled)
    (hnew : Builtin.ofName? sig.name = none) : Outline.Signed { o with funcs := sig :: o.funcs } := by
  have hfunc (name : String) : Outline.func? { o with funcs := sig :: o.funcs } name =
      if sig.name = name then some sig else o.func? name := by
    by_cases hname : sig.name = name <;> simp [Outline.func?, hname]
  refine ⟨h.prelude, fun name b hb => ?_, fun name sig' hsig' hb => ?_⟩
  · rw [hfunc, if_neg, h.builtin name b hb]
    rintro rfl
    rw [hnew] at hb
    cases hb
  · rw [hfunc] at hsig'
    split at hsig'
    · exact Option.some.inj hsig' ▸ hsig
    · exact h.declared name sig' hsig' hb

/-- All signatures are known, and nothing else is declared yet. -/
structure Outline.Start (o : Outline) : Prop extends o.Signed where
  declared_empty : o.declared = #[]
  handlers_empty : o.handlers = #[]
  scopes_empty : o.scopes = []

theorem addSignature_parses (token : Token) {sig : Signature} (hsig : φ → sig.Settled ∧ o.Start) :
    Parses (At φ o) (addSignature token sig) fun _ s => s.outline.Start := by
  have hend {ψ : Prop} (hψ : ψ → φ ∧ Builtin.ofName? sig.name = none) :
      Parses (At ψ o) (modify fun s => { s with funcs := sig :: s.funcs }) fun _ s => s.outline.Start := by
    refine .step (fun _ => rfl) fun s hs => ?_
    obtain ⟨hφ, hnew⟩ := hψ hs.1
    obtain ⟨hsettled, hstart⟩ := hsig hφ
    rw [← hs.2] at hstart
    exact ⟨hstart.toSigned.add hsettled hnew, hstart.declared_empty, hstart.handlers_empty, hstart.scopes_empty⟩
  have hnamed {ψ : Prop} (s : State) (hψ : ψ → φ ∧ s.outline = o) : Parses (At ψ o) (do
      if (s.prelude.func? sig.name).isSome then
        reportAt token (.overridesFunction sig.name)
      else if s.isFunc sig.name then
        reportAt token (.functionRedeclared sig.name)
      modify fun s => { s with funcs := sig :: s.funcs }) fun _ s => s.outline.Start := by
    dsimp only
    split
    · exact (Keeps.reportAt _ _ (A := fun _ => False)).andThen fun _ => hend fun h => h.2.elim
    next hprelude =>
    have hnew (h : ψ) : Builtin.ofName? sig.name = none := by
      obtain ⟨hφ, hs⟩ := hψ h
      have hstandard : s.prelude = .standard := by
        rw [← (hsig hφ).2.prelude, ← hs]
        rfl
      rw [hstandard, Builtin.func?_standard] at hprelude
      simpa using hprelude
    split
    · exact (Keeps.reportAt _ _ (A := fun _ => False)).andThen fun _ => hend fun h => h.2.elim
    · exact hend fun h => ⟨(hψ h).1, hnew h⟩
  refine Keeps.state.andThen fun s => ?_
  dsimp only
  split
  · exact (Keeps.reportAt _ _ (A := fun _ => False)).andThen fun _ => hnamed s fun h => h.1
  · exact hnamed s id

theorem Parses.atOutline {α : Type} {P : Outline → Prop} {m : Parse α} {Q : α → State → Prop}
    (h : ∀ o, Parses (At (P o) o) m Q) : Parses (fun s => P s.outline) m Q :=
  fun s hs => h s.outline s fun hclean => ⟨hs hclean, rfl⟩

theorem signatureAt_parses (pos : Nat) :
    Parses (fun s => s.outline.Start) (signatureAt pos) fun _ s => s.outline.Start := by
  refine .atOutline fun o => ?_
  refine (Keeps.step (f := fun s => { s with pos }) (fun _ => rfl) fun _ => rfl).andThen fun _ =>
    signature_reads.run.andThen fun r => ?_
  split
  · next token sig =>
    exact addSignature_parses token fun h => ⟨h.2 _ rfl, h.1.1⟩
  · exact .pure fun s hs => hs.2 ▸ hs.1.1.1

theorem signatures_parses (positions : List Nat) :
    Parses (fun s => s.outline.Start) (positions.forM signatureAt) fun _ s => s.outline.Start := by
  induction positions with
  | nil => exact .pure fun _ => id
  | cons pos positions ih => exact (signatureAt_parses pos).bind fun _ => ih

theorem start_start (source : String) : (State.start source .standard).outline.Start := by
  have hfunc (name : String) : (State.start source .standard).outline.func? name =
      (Builtin.ofName? name).map Builtin.signature := Builtin.func?_standard name
  refine ⟨⟨rfl, fun name b hb => ?_, fun name sig hsig hb => ?_⟩, rfl, rfl, rfl⟩
  · rw [hfunc, hb]
    rfl
  · rw [hfunc, hb] at hsig
    cases hsig

end Parsing

end TinyScript
