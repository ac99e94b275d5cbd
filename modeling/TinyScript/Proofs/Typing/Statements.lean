import TinyScript.Proofs.Typing.Expressions

/-!
# Statements are safe

The run of a checked and fitted statement is safe, if calls are safe. How it hands on control is as
the statement tells: `return` gives a value of the result type, `break` only leaves a loop, and what
terminates does not go on to the next statement.
-/

namespace TinyScript

/-- How control is handed on by a statement in a function with the given result, in a loop or not.
If `ends` holds, it does not go on to the next statement. -/
def FlowTyped (Θ : StoreTy) (result : Option Ty) (inLoop ends : Bool) : Flow → Prop
  | .next => ends = false
  | .ret v => ∃ τ, result = some τ ∧ HasType Θ v τ
  | .brk => inLoop

section
variable {F : Sigs} {G : Vars} {Θ Θ' : StoreTy} {L : List Scoping} {result : Option Ty}
  {inLoop ends : Bool} {flow : Flow} {P : List Scoping → Prop}

theorem FlowTyped.of_ends {ends' : Bool} (h : FlowTyped Θ result inLoop ends flow)
    (he : ends' → ends) : FlowTyped Θ result inLoop ends' flow := by
  cases flow with
  | next => exact Bool.eq_false_iff.2 fun h' => Bool.eq_false_iff.1 h (he h')
  | ret v => exact h
  | brk => exact h

/-! ### Loops -/

/-- An element of an array that a loop goes through is of the type of the loop variable. -/
theorem StoreTyped.hasType_elem {s : Store Value} {ref i : Nat} {a : ArrayTy} {v : Value}
    {τ : Option Ty} (hs : StoreTyped Θ s) (ha : Θ.arrays[ref]? = some a)
    (hτ : a.isEmpty ∨ ∀ t, τ = some t → t.same a.elem) (hv : (s.array ref)[i]? = some v) :
    ∀ t, τ = some t → HasType Θ v t := by
  have hmem := (Array.mem_of_getElem? hv).val
  rcases hτ with hempty | hτ
  · rw [hs.empty ref a ha hempty] at hmem
    cases hmem
  · exact fun t ht => (hs.array ref a ha v hmem).of_same (hτ t ht)

/-- What a round of a loop gives is a way to hand on control in a loop. -/
abbrev RoundTyped (result : Option Ty) (Θ : StoreTy) (flow : Flow) : Prop :=
  FlowTyped Θ result true false flow

namespace SafeIn

theorem thenRound {round : Eval Flow} (hP : P L) (hflow : RoundTyped result Θ flow)
    (hround : SafeIn Θ G L P round fun Θ' flow => FlowTyped Θ' result inLoop false flow) :
    SafeIn Θ G L P (flow.thenRound round) fun Θ' flow => FlowTyped Θ' result inLoop false flow := by
  cases flow with
  | next => exact hround
  | brk => exact pureIn hP rfl
  | ret v => exact pureIn hP hflow

theorem whileLoop {round : Eval (Option Flow)} (fuel : Nat)
    (hround : ∀ Θ', Θ ≤ Θ' → Safe Θ' G L round fun Θ'' o =>
      ∀ flow, o = some flow → RoundTyped result Θ'' flow) :
    Safe Θ G L (Eval.whileLoop round fuel) fun Θ' flow => FlowTyped Θ' result inLoop false flow := by
  induction fuel generalizing Θ with
  | zero => exact throw rfl
  | succ fuel ih =>
    refine (hround Θ (StoreTy.le_refl Θ)).andThen fun Θ' o hle ho => ?_
    cases o with
    | none => exact pure rfl
    | some flow =>
      exact thenRound rfl (ho flow rfl) (ih fun Θ'' hle' => hround Θ'' (StoreTy.le_trans hle hle'))

/-- The rounds of a loop over a range are safe, for a loop variable of type `τ`. -/
def Rounds (Θ : StoreTy) (G : Vars) (P : List Scoping → Prop) (result τ : Option Ty)
    (round : Value → Eval Flow) : Prop :=
  ∀ Θ' K v, Θ ≤ Θ' → P K → (∀ t, τ = some t → HasType Θ' v t) →
    SafeIn Θ' G K P (round v) fun Θ'' flow => RoundTyped result Θ'' flow

variable {round : Value → Eval Flow} {τ : Option Ty} (hP : P L)
  (hbelow : ∀ {K K'}, P K → P K' → SameBelow K K') (hround : Rounds Θ G P result τ round)

theorem Rounds.mono (hle : Θ ≤ Θ') (h : Rounds Θ G P result τ round) :
    Rounds Θ' G P result τ round :=
  fun Θ'' K v hle' => h Θ'' K v (StoreTy.le_trans hle hle')

include hP hbelow hround

theorem countLoop (hτ : ∀ t, τ = some t → t.same .num) (stop step : Float) (fuel : Nat) (x : Float) :
    SafeIn Θ G L P (Eval.countLoop round stop step fuel x)
      fun Θ' flow => FlowTyped Θ' result inLoop false flow := by
  induction fuel generalizing Θ L x with
  | zero => exact throw rfl
  | succ fuel ih =>
    unfold Eval.countLoop
    split
    · refine (hround Θ L _ (StoreTy.le_refl Θ) hP fun t ht => .num (hτ t ht) x).bind
        (fun K hK => hbelow hP hK) fun Θ' K flow hle hK hflow => ?_
      exact thenRound hK hflow (ih hK (hround.mono hle) _)
    · exact pureIn hP rfl

theorem textLoop (hτ : ∀ t, τ = some t → t.same .string) (cs : List Char) :
    SafeIn Θ G L P (Eval.textLoop round cs)
      fun Θ' flow => FlowTyped Θ' result inLoop false flow := by
  induction cs generalizing Θ L with
  | nil => exact pureIn hP rfl
  | cons c cs ih =>
    refine (hround Θ L _ (StoreTy.le_refl Θ) hP fun t ht => .str (hτ t ht) _).bind
      (fun K hK => hbelow hP hK) fun Θ' K flow hle hK hflow => ?_
    exact thenRound hK hflow (ih hK (hround.mono hle))

theorem mapLoop (hτ : ∀ t, τ = some t → t.same .string) (ref : Nat) (keys : List String) :
    SafeIn Θ G L P (Eval.mapLoop round ref keys)
      fun Θ' flow => FlowTyped Θ' result inLoop false flow := by
  induction keys generalizing Θ L with
  | nil => exact pureIn hP rfl
  | cons key keys ih =>
    refine store.andThen fun Θ' s hle _ => ?_
    have hround := hround.mono hle
    split
    · refine (hround Θ' L _ (StoreTy.le_refl Θ') hP fun t ht => .str (hτ t ht) _).bind
        (fun K hK => hbelow hP hK) fun Θ'' K flow hle' hK hflow => ?_
      exact thenRound hK hflow (ih hK (hround.mono hle'))
    · exact ih hP hround

theorem arrayLoop {ref : Nat} {a : ArrayTy} (ha : Θ.arrays[ref]? = some a)
    (hτ : a.isEmpty ∨ ∀ t, τ = some t → t.same a.elem) (fuel i : Nat) :
    SafeIn Θ G L P (Eval.arrayLoop round ref fuel i)
      fun Θ' flow => FlowTyped Θ' result inLoop false flow := by
  induction fuel generalizing Θ L i with
  | zero => exact throw rfl
  | succ fuel ih =>
    refine store.andThen fun Θ' s _ ⟨hΘ, hs⟩ => ?_
    subst hΘ
    split
    · next v hv =>
      refine (hround Θ' L v (StoreTy.le_refl Θ') hP (hs.hasType_elem ha hτ hv)).bind
        (fun K hK => hbelow hP hK) fun Θ'' K flow hle' hK hflow => ?_
      exact thenRound hK hflow (ih hK (hround.mono hle') (hle'.arrays ref a ha) _)
    · exact pureIn hP rfl

end SafeIn

/-! ### Ranges -/

/-- A value that a loop can run through, with a loop variable of type `τ`. -/
inductive Ranged (Θ : StoreTy) (τ : Option Ty) : Value → Prop where
  | array {ref : Nat} {t : Ty} {a : ArrayTy} (ha : Θ.arrays[ref]? = some a)
    (hτ : a.isEmpty ∨ ∀ t, τ = some t → t.same a.elem) : Ranged Θ τ (.array ref t)
  | text {s : String} (hτ : ∀ t, τ = some t → t.same .string) : Ranged Θ τ (.str s)
  | map {ref : Nat} {t : Ty} (hτ : ∀ t, τ = some t → t.same .string) : Ranged Θ τ (.map ref t)

theorem Range.ranged {e : Expr} {τ : Option Ty} {V : Vars} {v : Value}
    (hc : (Range.over e).Checked F V τ) (hf : (Range.over e).fitted F τ) (hv : HasType Θ v e.ty) :
    Ranged Θ τ v := by
  simp only [Range.fitted, Bool.and_eq_true, Bool.or_eq_true, bne_iff_ne] at hf
  rcases hc.2 with hk | ⟨hk | hk, hτ⟩
  · obtain ⟨ref, t, rfl⟩ := hv.array_inv hk
    obtain ⟨a, ha, hsame⟩ := hv.array_storage
    refine .array ha ?_
    rcases hf.2 with (h | h) | h
    · exact absurd hk h
    · exact .inl (a.isEmpty_of_none
        ((Ty.kind_eq_of_same hsame).symm.trans (Ty.kind_elem_of_isEmpty h)))
    · exact .inr fun t ht => Ty.same_trans (by simpa [ht] using h) hsame
  · obtain ⟨s, rfl⟩ := hv.str_inv hk
    exact .text hτ
  · obtain ⟨ref, t, rfl⟩ := hv.map_inv hk
    exact .map hτ

section
variable {invoke : Invoke} {fuel : Nat}

variable (hinvoke : SafeInvoke F G invoke)
include hinvoke

theorem Expr.safe_evalNumberOr {missing : Float} (e : Option Expr)
    (hc : Expr.BoundChecked F (varTy? G L) e) (hf : Expr.boundFitted F e) :
    Safe Θ G L (Expr.evalNumberOr invoke missing e) fun _ _ => True := by
  cases e with
  | none => exact .pure trivial
  | some e => exact Expr.safe_evalNumber hinvoke e hc.1 hc.2 hf

theorem Range.safe_run (range : Range) {τ : Option Ty} {round : Value → Eval Flow}
    (hc : range.Checked F (varTy? G L) τ) (hf : range.fitted F τ) (hP : P L)
    (hbelow : ∀ {K K'}, P K → P K' → SameBelow K K')
    (hround : SafeIn.Rounds Θ G P result τ round) :
    SafeIn Θ G L P (range.run invoke fuel round)
      fun Θ' flow => FlowTyped Θ' result inLoop false flow := by
  cases range with
  | step start stop stride =>
    obtain ⟨hc₁, hc₂, hc₃, hτ⟩ := hc
    simp only [Range.fitted, Bool.and_eq_true] at hf
    rw [Range.run_step]
    refine (Expr.safe_evalNumberOr hinvoke start hc₁ hf.1.1).andThen fun Θ₁ x hle₁ _ => ?_
    refine (Expr.safe_evalNumber hinvoke stop hc₂.1 hc₂.2 hf.1.2).andThen fun Θ₂ last hle₂ _ => ?_
    refine (Expr.safe_evalNumberOr hinvoke stride hc₃ hf.2).andThen fun Θ₃ step hle₃ _ => ?_
    have hround := hround.mono (StoreTy.le_trans hle₁ (StoreTy.le_trans hle₂ hle₃))
    split
    · exact .located (.fail rfl)
    · exact .countLoop hP hbelow hround hτ last step fuel x
  | «over» e =>
    have hfe := hf
    rw [Range.fitted, Bool.and_eq_true] at hfe
    refine (Expr.safe_eval hinvoke e hc.1 hfe.1).andThen fun Θ' v hle hv => ?_
    have hround := hround.mono hle
    cases Range.ranged hc hf hv.hasType with
    | array ha hτ => exact .arrayLoop hP hbelow hround ha hτ fuel 0
    | @text s hτ => exact .textLoop hP hbelow hround hτ s.toList
    | @map ref t hτ =>
      exact SafeIn.store.andThen fun Θ'' s hle' _ =>
        .mapLoop hP hbelow (hround.mono hle') hτ ref (s.map ref).keys

end

/-! ### Statements -/

theorem sameBelow_declareIn (L : List Scoping) (var : Var) : SameBelow L (declareIn L var) := by
  cases L <;> exact ⟨rfl, rfl⟩

theorem Stmt.sameBelow_scopings (s : Stmt) (L : List Scoping) : SameBelow L (s.scopings L) := by
  cases s <;> first | exact sameBelow_declareIn L _ | exact .refl L

namespace SafeIn
variable {var : Var} {v : Value}

/-- Begins a statement. -/
theorem statement {m : Eval Flow} {Q : StoreTy → Flow → Prop} (token : Token)
    (hm : ∀ Θ', Θ ≤ Θ' → SafeIn Θ' G L P m Q) : SafeIn Θ G L P (Eval.statement token m) Q :=
  tick.andThen fun Θ' _ hle _ => located (hm Θ' hle)

/-- Goes on only if the first part did not settle how control is handed on. -/
theorem orElse {first : Eval (Option Flow)} {rest : Eval Flow} {ends' : Bool}
    (h : Safe Θ G L first fun Θ' o =>
      ∀ flow, o = some flow → FlowTyped Θ' result inLoop ends flow)
    (h' : ∀ Θ', Θ ≤ Θ' → Safe Θ' G L rest fun Θ'' flow => FlowTyped Θ'' result inLoop ends' flow) :
    Safe Θ G L (first >>= fun o => match o with
        | some flow => Pure.pure flow
        | none => rest)
      fun Θ' flow => FlowTyped Θ' result inLoop (ends && ends') flow := by
  refine h.andThen fun Θ' o hle ho => ?_
  cases o with
  | some flow => exact pure ((ho flow rfl).of_ends fun h => (Bool.and_eq_true _ _ ▸ h).1)
  | none => exact (h' Θ' hle).weaken fun _ flow _ hflow =>
      hflow.of_ends fun h => (Bool.and_eq_true _ _ ▸ h).2

theorem declare (hG : L = [] → G var.name = some var.ty) (hv : HasType Θ v var.ty) :
    SafeTo Θ G L (declareIn L var) (Eval.declare var v)
      fun Θ' flow => FlowTyped Θ' result inLoop false flow := by
  have hany : (if var.ty.same .any then v.toAny else v) = v := by
    split
    · next h =>
      obtain ⟨w, rfl⟩ := hv.any_inv (Ty.kind_eq_of_same h)
      rfl
    · rfl
  unfold Eval.declare
  rw [hany]
  refine SafeIn.bind (P := (· = declareIn L var)) (Q := fun _ _ => True) ?_
    (fun K hK => hK ▸ sameBelow_declareIn L var) fun Θ' K _ _ hK _ => pureIn hK rfl
  refine modifyFrames fun fs hfs => ?_
  cases L with
  | nil => exact hfs.insert_global (hG rfl) hv
  | cons l L => exact hfs.insert hv

/-- The blocks in a round of a loop: the innermost one has the variable of the loop, or nothing
before the first round. -/
def InRounds (L : List Scoping) (var : Option Var) (K : List Scoping) : Prop :=
  ∃ l, K = l :: L ∧ (l = [] ∨ l = loopScoping var)

theorem InRounds.sameBelow {var : Option Var} {K K' : List Scoping} (h : InRounds L var K)
    (h' : InRounds L var K') : SameBelow K K' := by
  obtain ⟨l, rfl, -⟩ := h
  obtain ⟨l', rfl, -⟩ := h'
  exact ⟨rfl, rfl⟩

theorem bindLoopVar {var : Option Var} {K : List Scoping} (hK : InRounds L var K)
    (hv : ∀ t, var.map (·.ty) = some t → HasType Θ v t) :
    SafeTo Θ G K (loopScoping var :: L) (Eval.bindLoopVar var v) fun _ _ => True := by
  obtain ⟨l, rfl, hl⟩ := hK
  cases var with
  | none =>
    have hl : l = [] := hl.elim id id
    subst hl
    exact pure trivial
  | some x =>
    have hv := hv x.ty rfl
    show SafeTo Θ G _ _ (Eval.modifyFrames (·.insert x.name v)) _
    refine modifyFrames fun fs hfs => ?_
    have hins : FramesTyped Θ (fs.insert x.name v) G _ := hfs.insert hv
    rcases hl with rfl | rfl
    · exact hins
    · refine ⟨hins.globals, ?_⟩
      obtain ⟨f, fs', hf, hrest, heq⟩ := List.forall₂_cons_right_iff.1 hins.locals
      rw [heq]
      exact .cons hf.of_redeclared hrest

/-- A round of a loop: the body runs once the loop variable is set. -/
theorem round {var : Option Var} {K : List Scoping} {body : Eval Flow} (hK : InRounds L var K)
    (hv : ∀ t, var.map (·.ty) = some t → HasType Θ v t)
    (hbody : ∀ Θ', Safe Θ' G (loopScoping var :: L) body
      fun Θ'' flow => FlowTyped Θ'' result true ends flow) :
    SafeIn Θ G K (InRounds L var) (Eval.bindLoopVar var v >>= fun _ => body)
      fun Θ' flow => RoundTyped result Θ' flow := by
  refine (bindLoopVar hK hv).bind (fun K' hK' => ?_) fun Θ' K' _ _ hK' _ => ?_
  · exact hK.sameBelow ⟨_, hK', .inr rfl⟩
  · subst hK'
    exact (hbody Θ').mono (fun K hK => ⟨_, hK, .inr rfl⟩)
      fun Θ'' flow _ hflow => hflow.of_ends fun h => by cases h

end SafeIn

section
variable {invoke : Invoke} {fuel : Nat}

mutual

theorem Stmt.safe_run (hinvoke : SafeInvoke F G invoke) {Θ : StoreTy} {L : List Scoping} {inLoop : Bool}
    (s : Stmt)
    (hc : s.Checked F G result L inLoop) (hf : s.fitted F (result.getD .none)) :
    SafeTo Θ G L (s.scopings L) (s.run invoke fuel)
      fun Θ' flow => FlowTyped Θ' result inLoop s.terminates flow := by
  match s with
  | .empty .. | .func .. | .on .. => exact .statement _ fun _ _ => .pure rfl
  | .typedDecl token comment var value | .inferredDecl token comment var value =>
    obtain ⟨hc, hG⟩ := hc
    simp only [Stmt.fitted, Bool.and_eq_true] at hf
    exact .statement token fun Θ' _ => (Expr.safe_eval hinvoke value hc hf.2).andThen
      fun Θ'' v _ hv => .declare hG (hv.hasType.of_same hf.1)
  | .assign token comment target value =>
    obtain ⟨hcv, hct, ht⟩ := hc
    simp only [Stmt.fitted, Bool.and_eq_true] at hf
    exact .statement token fun Θ' _ => (Expr.safe_eval hinvoke value hcv hf.1.2).andThen
      fun Θ'' v _ hv => (Expr.safe_assign hinvoke target hct ht hf.2 (hv.hasType.of_same hf.1.1)).andThen
      fun _ _ _ _ => .pure rfl
  | .call token comment name args ty =>
    obtain ⟨hsig, hc⟩ := hc
    simp only [Stmt.fitted, Bool.and_eq_true] at hf
    exact .statement token fun Θ' _ => (Expr.safe_evalList hinvoke args hc hf.2 .nil).andThen
      fun Θ'' vs _ hvs => (hinvoke.call hsig hf.1 hvs).andThen fun _ _ _ _ => .pure rfl
  | .ret token comment none =>
    obtain ⟨τ, hτ, hs⟩ := hc
    exact .statement token fun Θ' _ => .pure ⟨τ, hτ, .none hs⟩
  | .ret token comment (some value) =>
    obtain ⟨⟨τ, hτ⟩, hc⟩ := hc
    simp only [Stmt.fitted, Bool.and_eq_true, hτ, Option.getD_some] at hf
    exact .statement token fun Θ' _ => (Expr.safe_eval hinvoke value hc hf.2).andThen
      fun Θ'' v _ hv => .pure ⟨τ, hτ, hv.hasType.of_same hf.1⟩
  | .brk token comment => exact .statement token fun _ _ => .pure hc
  | .cond token comment first more none =>
    obtain ⟨hc₁, hc₂, -⟩ := hc
    simp only [Stmt.fitted, Bool.and_eq_true] at hf
    refine .statement token fun Θ' _ => (SafeIn.orElse (Branch.safe_run hinvoke first hc₁ hf.1.1) fun Θ₁ _ =>
      .orElse (Branch.safe_runFirst hinvoke more hc₂ hf.1.2) fun Θ₂ _ =>
        .pure (show FlowTyped Θ₂ result inLoop false .next from rfl)).weaken
      fun Θ'' flow _ hflow => hflow.of_ends fun h => by cases h
  | .cond token comment first more (some block) =>
    obtain ⟨hc₁, hc₂, hc₃⟩ := hc
    simp only [Stmt.fitted, Bool.and_eq_true] at hf
    refine .statement token fun Θ' _ => (SafeIn.orElse (Branch.safe_run hinvoke first hc₁ hf.1.1) fun Θ₁ _ =>
      .orElse (Branch.safe_runFirst hinvoke more hc₂ hf.1.2) fun Θ₂ _ =>
        Block.safe_run hinvoke block hc₃ hf.2).weaken
      fun Θ'' flow _ hflow => hflow.of_ends fun h => ?_
    simp only [Stmt.terminates, Bool.and_eq_true] at h ⊢
    exact ⟨h.1.2, h.2, h.1.1⟩
  | .loop token branch =>
    exact .statement token fun Θ' _ => .whileLoop fuel fun Θ'' _ =>
      (Branch.safe_run hinvoke branch hc hf).weaken fun Θ₃ o _ ho flow hflow =>
        (ho flow hflow).of_ends fun h => by cases h
  | .each token comment var range body =>
    obtain ⟨hcr, hcb⟩ := hc
    simp only [Stmt.fitted, Bool.and_eq_true] at hf
    refine .statement token fun Θ' _ => .nested (P := SafeIn.InRounds L var)
      (Range.safe_run hinvoke range hcr hf.1 ⟨[], rfl, .inl rfl⟩ SafeIn.InRounds.sameBelow ?_)
      fun K hK => SafeIn.InRounds.sameBelow ⟨[], rfl, .inl rfl⟩ hK
    exact fun Θ'' K v _ hK hv => .round hK hv fun Θ₃ => Block.safe_run hinvoke body hcb hf.2

theorem Branch.safe_run (hinvoke : SafeInvoke F G invoke) {Θ : StoreTy} {L : List Scoping} {inLoop : Bool}
    (b : Branch)
    (hc : b.Checked F G result L inLoop) (hf : b.fitted F (result.getD .none)) :
    Safe Θ G L (b.run invoke fuel)
      fun Θ' o => ∀ flow, o = some flow → FlowTyped Θ' result inLoop b.terminates flow := by
  match b with
  | .mk token comment test body =>
    obtain ⟨hct, hty, hcb⟩ := hc
    simp only [Branch.fitted, Bool.and_eq_true] at hf
    refine (Expr.safe_eval hinvoke test hct hf.1).andThen fun Θ' v _ hv => ?_
    obtain ⟨holds, rfl⟩ := hv.hasType.bool_inv (Ty.kind_eq_of_same hty)
    refine (SafeIn.pure (Q := fun _ _ => True) trivial).andThen fun Θ'' c _ _ => ?_
    split
    · refine (Block.safe_run hinvoke body hcb hf.2).andThen fun Θ₃ flow _ hflow => .pure fun _ h => ?_
      cases h
      exact hflow
    · exact .pure fun _ h => by cases h

theorem Branch.safe_runFirst (hinvoke : SafeInvoke F G invoke) {Θ : StoreTy} {L : List Scoping}
    {inLoop : Bool} (bs : List Branch)
    (hc : Branch.AllChecked F G result L inLoop bs) (hf : Branch.allFitted F (result.getD .none) bs) :
    Safe Θ G L (Branch.runFirst invoke fuel bs)
      fun Θ' o => ∀ flow, o = some flow → FlowTyped Θ' result inLoop (allTerminate bs) flow := by
  match bs with
  | [] => exact .pure fun _ h => by cases h
  | b :: bs =>
    simp only [Branch.allFitted, Bool.and_eq_true] at hf
    refine (Branch.safe_run hinvoke b hc.1 hf.1).andThen fun Θ' o _ ho => ?_
    have hboth {flow : Flow} {e : Bool} {Θ : StoreTy} (he : allTerminate (b :: bs) → e)
        (h : FlowTyped Θ result inLoop e flow) :
        ∀ flow', some flow = some flow' → FlowTyped Θ result inLoop (allTerminate (b :: bs)) flow' := by
      intro _ h'
      cases h'
      exact h.of_ends he
    cases o with
    | some flow =>
      refine .pure (hboth (fun h => ?_) (ho flow rfl))
      rw [allTerminate, Bool.and_eq_true] at h
      exact h.1
    | none =>
      refine (Branch.safe_runFirst hinvoke bs hc.2 hf.2).weaken fun Θ'' o _ ho flow hflow => ?_
      refine (ho flow hflow).of_ends fun h => ?_
      rw [allTerminate, Bool.and_eq_true] at h
      exact h.2

theorem Block.safe_run (hinvoke : SafeInvoke F G invoke) {Θ : StoreTy} {L : List Scoping} {inLoop : Bool}
    (b : Block)
    (hc : b.Checked F G result L inLoop) (hf : b.fitted F (result.getD .none)) :
    Safe Θ G L (b.run invoke fuel)
      fun Θ' flow => FlowTyped Θ' result inLoop b.terminates flow := by
  match b with
  | .mk token comment stmts =>
    exact .nested (Stmt.safe_runAll hinvoke stmts hc hf) fun _ => id

theorem Stmt.safe_runAll (hinvoke : SafeInvoke F G invoke) {Θ : StoreTy} {L : List Scoping} {inLoop : Bool}
    (ss : List Stmt)
    (hc : Stmt.AllChecked F G result L inLoop ss) (hf : Stmt.allFitted F (result.getD .none) ss) :
    SafeIn Θ G L (SameBelow L) (Stmt.runAll invoke fuel ss)
      fun Θ' flow => FlowTyped Θ' result inLoop (anyTerminates ss) flow := by
  match ss with
  | [] => exact .pureIn (.refl L) rfl
  | s :: ss =>
    simp only [Stmt.allFitted, Bool.and_eq_true] at hf
    refine (Stmt.safe_run hinvoke s hc.1 hf.1).bind (fun K hK => hK ▸ s.sameBelow_scopings L)
      fun Θ' K flow _ hK hflow => ?_
    subst hK
    have hbelow := s.sameBelow_scopings L
    cases flow with
    | next =>
      refine (Stmt.safe_runAll hinvoke ss hc.2 hf.2).mono (fun _ => hbelow.trans) fun Θ'' flow _ h => ?_
      refine h.of_ends fun he => ?_
      rw [anyTerminates, show s.terminates = false from hflow] at he
      exact he
    | ret v => exact .pureIn hbelow hflow
    | brk => exact .pureIn hbelow hflow

end

variable (hinvoke : SafeInvoke F G invoke)
include hinvoke

end

end

end TinyScript
