import TinyScript.Proofs.Typing.Builtins

/-!
# Expressions are safe

The evaluation of a checked and fitted expression is safe and has a value of the type of the
expression, if calls are safe.
-/

namespace TinyScript

/-- Calls are safe: a known function has a result of its type, and an unknown one has none. -/
structure SafeInvoke (F : Sigs) (G : Vars) (invoke : Invoke) : Prop where
  known : ∀ {Θ L name sig args}, F name = some sig → ArgsTyped Θ args sig →
    Safe Θ G L (invoke name args) fun Θ' v => HasType Θ' v sig.result
  unknown : ∀ {Θ L name args}, F name = none →
    Safe Θ G L (invoke name args) fun _ _ => False

section
variable {F : Sigs} {G : Vars} {Θ Θ' : StoreTy} {L : List Scoping} {invoke : Invoke}

/-- A value is one of an expression. -/
structure ValueOf (Θ : StoreTy) (v : Value) (e : Expr) : Prop where
  hasType : HasType Θ v e.ty
  empty : e.isEmptyArray → v.IsEmptyArray Θ

theorem ValueOf.mono {v : Value} {e : Expr} (hle : Θ ≤ Θ') (h : ValueOf Θ v e) : ValueOf Θ' v e :=
  ⟨h.hasType.mono hle, fun he => (h.empty he).mono hle⟩

/-- A value of an expression that does not denote an empty array for sure. -/
theorem ValueOf.of {v : Value} {e : Expr} (he : e.isEmptyArray = false) (h : HasType Θ v e.ty) :
    ValueOf Θ v e :=
  ⟨h, fun h' => by rw [he] at h'; cases h'⟩

/-! ### Arguments -/

theorem argTyped_of_takes {x : Var} {v : Value} {e : Expr} (hx : x.takes e) (hv : ValueOf Θ v e) :
    ArgTyped Θ v x.ty := by
  simp only [Var.takes, Bool.or_eq_true, Bool.and_eq_true, beq_iff_eq] at hx
  rcases hx with hx | ⟨hg, hk⟩
  · exact .inl (hv.hasType.of_same hx)
  · exact .inr ⟨hg, e.ty, hv.hasType, hk⟩

/-- The values of arguments that fit a signature. -/
theorem argsTyped_of_argumentsFit {sig : Signature} {args : List Expr} {vs : List Value}
    (hn : sig.TakesCount args.length) (hfit : sig.argumentsFit args)
    (hvs : List.Forall₂ (ValueOf Θ) vs args) : ArgsTyped Θ vs sig := by
  unfold Signature.argumentsFit at hfit
  unfold ArgsTyped
  cases hvar : sig.variadic with
  | some x =>
    simp only [hvar, List.all_eq_true] at hfit
    intro v hv
    obtain ⟨i, hi, rfl⟩ := List.mem_iff_getElem.1 hv
    have hi' := hvs.length_eq ▸ hi
    exact argTyped_of_takes (hfit _ (List.getElem_mem hi')) ((List.forall₂_iff_get.1 hvs).2 i hi hi')
  | none =>
    simp only [hvar, List.all_eq_true] at hfit
    have hlen := hn hvar
    refine List.forall₂_iff_get.2 ⟨by rw [hvs.length_eq, List.length_map, hlen], fun i hi hi' => ?_⟩
    have hargs : i < args.length := hvs.length_eq ▸ hi
    have hparams : i < sig.params.length := hlen ▸ hargs
    have hzip : i < (sig.params.zip args).length := by
      rw [List.length_zip, hlen, Nat.min_self]
      exact hargs
    have hx := hfit _ (List.getElem_mem hzip)
    rw [List.getElem_zip] at hx
    simpa using argTyped_of_takes hx ((List.forall₂_iff_get.1 hvs).2 i hi hargs)

/-- A call with arguments that fit the function, if there is one of this name. -/
theorem SafeInvoke.call {name : String} {args : List Expr} {vs : List Value}
    (h : SafeInvoke F G invoke) (hn : ∀ sig, F name = some sig → sig.TakesCount args.length)
    (hfit : (F name).all (·.argumentsFit args)) (hvs : List.Forall₂ (ValueOf Θ) vs args) :
    Safe Θ G L (invoke name vs) fun Θ' v => ∃ sig, F name = some sig ∧ HasType Θ' v sig.result := by
  cases hF : F name with
  | none => exact (h.unknown hF).weaken fun _ _ _ h => h.elim
  | some sig =>
    have hfit : sig.argumentsFit args := by simpa [hF] using hfit
    exact (h.known hF (argsTyped_of_argumentsFit (hn sig hF) hfit hvs)).weaken
      fun _ v _ hv => ⟨sig, rfl, hv⟩

/-! ### Expressions -/

/-- The literals of arrays, whose elements `vs` have their values in `es`. -/
theorem SafeIn.arrayLiteral {m : Mark} {layout : List LayoutItem} {es : List Expr} {vs : Array Value}
    (hty : m.ty.same (.array m.ty.elem)) (hfit : ∀ e ∈ es, m.ty.elem.same e.ty ∧ e.ty.kind ≠ .none)
    (hvs : List.Forall₂ (ValueOf Θ) vs.toList es) :
    Safe Θ G L (Eval.newArray vs m.ty.unfixed) fun Θ' v => ValueOf Θ' v (.array m layout es) := by
  have hempty : es.isEmpty → vs = #[] := by
    intro h
    rw [List.isEmpty_iff.1 h] at hvs
    exact Array.toList_eq_nil_iff.1 (List.forall₂_nil_right_iff.1 hvs)
  have hnone : m.ty.elem.kind = .none → es.isEmpty := by
    intro hk
    cases es with
    | nil => rfl
    | cons e es =>
      obtain ⟨hs, hne⟩ := hfit e List.mem_cons_self
      exact absurd ((Ty.kind_eq_of_same hs).symm.trans hk) hne
  refine (SafeIn.newArray (a := ⟨m.ty.elem, es.isEmpty, hnone⟩)
    (Ty.same_trans (Ty.same_symm (Ty.same_unfixed _)) hty) ?_ hempty).weaken fun Θ' v _ hv => ?_
  · intro v hv
    obtain ⟨i, hi, rfl⟩ := List.mem_iff_getElem.1 hv
    have hi' := hvs.length_eq ▸ hi
    exact ((List.forall₂_iff_get.1 hvs).2 i hi hi').hasType.of_same
      (hfit _ (List.getElem_mem hi')).1
  · refine ⟨hv.1.of_same (Ty.same_unfixed _), fun h => hv.2 ?_⟩
    cases es with
    | nil => rfl
    | cons e es => cases h

section
variable {m : Mark} {op : BinaryOp} {tight : Bool} {left right : Expr} {v w : Value}

/-- An operator that its left operand settles. -/
theorem ValueOf.of_settled {u : Value} (hop : op.Takes left.ty right.ty m.ty)
    (hu : op.settled? v = some u) : ValueOf Θ u (.binary m op tight left right) := by
  unfold BinaryOp.settled? at hu
  split at hu
  · cases hu; exact .of rfl (.bool hop.2.2 _)
  · cases hu; exact .of rfl (.bool hop.2.2 _)
  · cases hu

theorem SafeIn.binary (hop : op.Takes left.ty right.ty m.ty)
    (hsum : (op ≠ .add ∨ left.ty.kind ≠ .array) ∨ left.concatFits right m.ty)
    (hv : ValueOf Θ v left) (hw : ValueOf Θ w right) :
    Safe Θ G L (op.eval v w) fun Θ' u => ValueOf Θ' u (.binary m op tight left right) := by
  by_cases harr : op = .add ∧ left.ty.kind = .array
  · obtain ⟨rfl, hkind⟩ := harr
    have hkindr : right.ty.kind = .array := by
      obtain ⟨h, -⟩ | ⟨h, -⟩ | ⟨-, h, -⟩ := hop
      · exact absurd (hkind.symm.trans (Ty.kind_eq_of_same h)) (by decide)
      · exact absurd (hkind.symm.trans (Ty.kind_eq_of_same h)) (by decide)
      · exact h
    obtain ⟨a, tyA, rfl⟩ := hv.hasType.array_inv hkind
    obtain ⟨b, tyB, rfl⟩ := hw.hasType.array_inv hkindr
    have hfit : left.concatFits right m.ty := by simpa [hkind] using hsum
    refine (SafeIn.concat hv.hasType hw.hasType (t := m.ty) ?_).weaken fun Θ' u _ hu =>
      ⟨hu.1, fun he => ?_⟩
    · unfold Expr.concatFits at hfit
      split at hfit
      · next hl => exact .inl ⟨hl, hfit⟩
      · next hl =>
        simp only [Bool.and_eq_true, Bool.or_eq_true] at hfit
        refine .inr ⟨Bool.eq_false_iff.2 hl, hfit.1, ?_⟩
        rcases hfit.2 with (h | h) | h
        · exact .inl h
        · exact .inr (.inl h)
        · exact .inr (.inr (hw.empty h))
    · simp only [Expr.isEmptyArray, Bool.and_eq_true] at he
      exact hu.2 (hv.empty he.1) (hw.empty he.2)
  · refine (BinaryOp.safe_eval hop hv.hasType hw.hasType fun ho hk => harr ⟨ho, hk⟩).weaken
      fun Θ' u _ hu => ⟨hu, fun he => ?_⟩
    -- the sum of empty arrays is one of arrays
    cases op with
    | add =>
      simp only [Expr.isEmptyArray, Bool.and_eq_true] at he
      obtain ⟨r, t, a, rfl, -, -⟩ := hv.empty he.1
      exact absurd ⟨rfl, hv.hasType.kind_eq⟩ harr
    | _ => cases he

end

mutual

theorem Expr.safe_eval (hinvoke : SafeInvoke F G invoke) {Θ : StoreTy} (e : Expr)
    (hc : e.Checked F (varTy? G L)) (hf : e.fitted F) :
    Safe Θ G L (e.eval invoke) fun Θ' v => ValueOf Θ' v e := by
  match e with
  | .num m x => exact .pure (.of rfl (.num hc x))
  | .str m s => exact .pure (.of rfl (.str hc s))
  | .bool m b => exact .pure (.of rfl (.bool hc b))
  | .var m name =>
    obtain ⟨hname, τ, hτ, hs⟩ := hc
    exact ((SafeIn.lookup hname hτ).located).weaken fun _ v _ hv =>
      .of rfl (hv.of_same (Ty.same_symm hs))
  | .array m layout elems =>
    obtain ⟨hty, hc⟩ := hc
    simp only [Expr.fitted, Bool.and_eq_true, List.all_eq_true, bne_iff_ne] at hf
    exact .located ((Expr.safe_evalList hinvoke elems hc hf.2 .nil).andThen fun Θ' vs _ hvs =>
      .arrayLiteral hty hf.1 hvs)
  | .map m layout pairs =>
    obtain ⟨hty, hc⟩ := hc
    simp only [Expr.fitted, Bool.and_eq_true, List.all_eq_true] at hf
    refine .located ((Expr.safe_evalPairs hinvoke pairs hc hf.2 (fun p hp => hf.1 p hp)
      (by simp)).andThen fun Θ' ps _ hps => ?_)
    exact (SafeIn.newMap (Ty.same_trans (Ty.same_symm (Ty.same_unfixed _)) hty) hps).weaken
      fun _ v _ hv => .of rfl (hv.of_same (Ty.same_unfixed _))
  | .call m name args result =>
    obtain ⟨hsig, hc⟩ := hc
    simp only [Expr.fitted, Bool.and_eq_true] at hf
    refine .located ((Expr.safe_evalList hinvoke args hc hf.2 .nil).andThen fun Θ' vs _ hvs => ?_)
    exact (hinvoke.call (fun sig hF => (hsig sig hF).1) hf.1 hvs).weaken
      fun _ v _ ⟨sig, hF, hv⟩ => .of rfl (hv.of_same (hsig sig hF).2)
  | .unary m op operand =>
    obtain ⟨hop, hty, hc⟩ := hc
    refine .located ((Expr.safe_eval hinvoke operand hc hf).andThen fun Θ' v _ hv => ?_)
    exact (UnaryOp.safe_eval hop hv.hasType).weaken fun _ u _ hu => .of rfl (hu.of_same hty)
  | .binary m op tight left right =>
    obtain ⟨hop, hcl, hcr⟩ := hc
    simp only [Expr.fitted, Bool.and_eq_true, Bool.or_eq_true, bne_iff_ne] at hf
    obtain ⟨⟨hsum, hfl⟩, hfr⟩ := hf
    refine .located ((Expr.safe_eval hinvoke left hcl hfl).andThen fun Θ₁ v _ hv => ?_)
    split
    · next u hu => exact .pure (.of_settled hop hu)
    · exact (Expr.safe_eval hinvoke right hcr hfr).andThen fun Θ₂ w hle hw =>
        .binary hop hsum (hv.mono hle) hw
  | .index m left key =>
    obtain ⟨hty, hcl, hck⟩ := hc
    simp only [Expr.fitted, Bool.and_eq_true] at hf
    refine .located ((Expr.safe_eval hinvoke left hcl hf.1).andThen fun Θ₁ v _ hv =>
      (Expr.safe_eval hinvoke key hck hf.2).andThen fun Θ₂ w hle hw => ?_)
    exact (SafeIn.at hty (hv.hasType.mono hle) hw.hasType).weaken fun _ u _ hu => .of rfl hu
  | .slice m left start stop =>
    obtain ⟨hk, hty, hcl, hc₁, hc₂⟩ := hc
    simp only [Expr.fitted, Bool.and_eq_true] at hf
    refine .located ((Expr.safe_eval hinvoke left hcl hf.1.1).andThen fun Θ₁ v _ hv =>
      (Expr.safe_evalNumber? hinvoke start hc₁ hf.1.2).andThen fun Θ₂ a hle _ =>
      (Expr.safe_evalNumber? hinvoke stop hc₂ hf.2).andThen fun Θ₃ b hle' _ => ?_)
    have hv := hv.hasType.mono (StoreTy.le_trans hle hle')
    exact (SafeIn.slice hk hty hv a b).weaken fun _ u _ hu => .of rfl hu
  | .dot m left key =>
    obtain ⟨hk, hty, hc⟩ := hc
    refine .located ((Expr.safe_eval hinvoke left hc hf).andThen fun Θ' v _ hv => ?_)
    exact (SafeIn.field hk hty hv.hasType key).weaken fun _ u _ hu => .of rfl hu
  | .group m inner =>
    simp only [Expr.fitted, Bool.and_eq_true] at hf
    exact .located ((Expr.safe_eval hinvoke inner hc hf.2).weaken fun _ v _ hv =>
      ⟨hv.hasType.of_same hf.1, hv.empty⟩)
  | .assert m left =>
    obtain ⟨hany, hty, hc⟩ := hc
    refine .located ((Expr.safe_eval hinvoke left hc hf).andThen fun Θ' v _ hv => ?_)
    exact (SafeIn.asserted hany hty hv.hasType).weaken fun _ u _ hu => .of rfl hu
  | .any m inner =>
    obtain ⟨hty, hc⟩ := hc
    simp only [Expr.fitted, Bool.and_eq_true] at hf
    refine .located ((Expr.safe_eval hinvoke inner hc hf.2).andThen fun Θ' v _ hv => ?_)
    exact .pure (.of rfl ((hv.hasType.toAny hf.1).of_same hty))

/-- The values of expressions come after the values `done` of the expressions `es₀`. -/
theorem Expr.safe_evalList (hinvoke : SafeInvoke F G invoke) {Θ : StoreTy} (es : List Expr)
    {es₀ : List Expr} {done : Array Value}
    (hc : Expr.AllChecked F (varTy? G L) es) (hf : Expr.allFitted F es)
    (hdone : List.Forall₂ (ValueOf Θ) done.toList es₀) :
    Safe Θ G L (Expr.evalList invoke done es) fun Θ' vs =>
      List.Forall₂ (ValueOf Θ') vs.toList (es₀ ++ es) := by
  match es with
  | [] => exact .pure (by simpa using hdone)
  | e :: es =>
    simp only [Expr.allFitted, Bool.and_eq_true] at hf
    refine (Expr.safe_eval hinvoke e hc.1 hf.1).andThen fun Θ' v hle hv => ?_
    have hdone' : List.Forall₂ (ValueOf Θ') (done.push v).toList (es₀ ++ [e]) := by
      rw [Array.toList_push]
      exact List.rel_append (hdone.imp fun _ _ => ValueOf.mono hle) (.cons hv .nil)
    simpa using Expr.safe_evalList hinvoke es hc.2 hf.2 hdone'

/-- The values in a map literal are of the element type, as are those that come before them. -/
theorem Expr.safe_evalPairs (hinvoke : SafeInvoke F G invoke) {Θ : StoreTy} (es : List (String × Expr))
    {done : Pairs Value} {τ : Ty}
    (hc : Expr.PairsChecked F (varTy? G L) es) (hf : Expr.pairsFitted F es)
    (hτ : ∀ p ∈ es, τ.same p.2.ty) (hdone : ∀ k v, done.get? k = some v → HasType Θ v τ) :
    Safe Θ G L (Expr.evalPairs invoke done es) fun Θ' ps =>
      ∀ k v, ps.get? k = some v → HasType Θ' v τ := by
  match es with
  | [] => exact .pure hdone
  | (key, e) :: es =>
    simp only [Expr.pairsFitted, Bool.and_eq_true] at hf
    refine (Expr.safe_eval hinvoke e hc.1 hf.1).andThen fun Θ' v hle hv => ?_
    refine Expr.safe_evalPairs hinvoke es hc.2 hf.2 (fun p hp => hτ p (List.mem_cons_of_mem _ hp)) ?_
    intro k u hu
    rw [Pairs.get?_insert] at hu
    split at hu
    · cases hu
      exact hv.hasType.of_same (hτ (key, e) List.mem_cons_self)
    · exact (hdone k u hu).mono hle

theorem Expr.safe_evalNumber? (hinvoke : SafeInvoke F G invoke) {Θ : StoreTy} (e : Option Expr)
    (hc : Expr.BoundChecked F (varTy? G L) e)
    (hf : Expr.boundFitted F e) :
    Safe Θ G L (Expr.evalNumber? invoke e) fun _ _ => True := by
  match e with
  | none => exact .pure trivial
  | some e =>
    refine (Expr.safe_eval hinvoke e hc.2 hf).andThen fun Θ' v _ hv => ?_
    exact (SafeIn.located (.number hc.1 hv.hasType)).andThen fun _ _ _ _ => .pure trivial

end

variable (hinvoke : SafeInvoke F G invoke)
include hinvoke

theorem Expr.safe_evalNumber (e : Expr) (hty : e.ty.same .num) (hc : e.Checked F (varTy? G L))
    (hf : e.fitted F) : Safe Θ G L (e.evalNumber invoke) fun _ _ => True :=
  (Expr.safe_eval hinvoke e hc hf).andThen fun _ _ _ hv => .located (.number hty hv.hasType)

/-- An assignment of a value of the type of its target. -/
theorem Expr.safe_assign (target : Expr) (hc : target.Checked F (varTy? G L)) (ht : target.IsTarget)
    (hf : target.fitted F) {v : Value} (hv : HasType Θ v target.ty) :
    Safe Θ G L (target.assign invoke v) fun _ _ => True := by
  cases target with
  | var m name =>
    obtain ⟨hname, τ, hτ, hs⟩ := hc
    exact .assign hname hτ (hv.of_same hs)
  | index m left key =>
    obtain ⟨hty, hcl, hck⟩ := hc
    simp only [Expr.fitted, Bool.and_eq_true] at hf
    refine (Expr.safe_eval hinvoke left hcl hf.1).andThen fun Θ₁ l hle₁ hl =>
      (Expr.safe_eval hinvoke key hck hf.2).andThen fun Θ₂ k hle₂ hk => ?_
    have hl := hl.hasType.mono hle₂
    have hv := hv.mono (StoreTy.le_trans hle₁ hle₂)
    obtain ⟨hkind, hkey, hsame⟩ | ⟨hkind, hkey, hsame⟩ | ⟨hkind, -, -⟩ := hty
    · obtain ⟨ref, t, rfl⟩ := hl.array_inv hkind
      obtain ⟨x, rfl⟩ := hk.hasType.num_inv (Ty.kind_eq_of_same hkey)
      exact .located (.setElem hl (hv.of_same (Ty.same_symm hsame)))
    · obtain ⟨ref, t, rfl⟩ := hl.map_inv hkind
      obtain ⟨s, rfl⟩ := hk.hasType.str_inv (Ty.kind_eq_of_same hkey)
      exact .setField hl (hv.of_same (Ty.same_symm hsame))
    · obtain ⟨s, rfl⟩ := hl.str_inv hkind
      exact absurd hl.same (Bool.eq_false_iff.1 ht)
  | dot m left key =>
    obtain ⟨hkind, hsame, hcl⟩ := hc
    refine (Expr.safe_eval hinvoke left hcl hf).andThen fun Θ₁ l hle hl => ?_
    obtain ⟨ref, t, rfl⟩ := hl.hasType.map_inv hkind
    exact .setField hl.hasType ((hv.mono hle).of_same (Ty.same_symm hsame))
  | _ => exact ht.elim

end

end TinyScript
