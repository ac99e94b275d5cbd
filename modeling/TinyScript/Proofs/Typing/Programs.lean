import TinyScript.Proofs.Typing.Statements

/-!
# Programs are safe

The calls of a checked and fitted program are safe by induction on the depth of calls, and with them
its run and its handlers.
-/

namespace TinyScript

section
variable {G : Vars} {Θ : StoreTy} {L : List Scoping} {args : List Value}

namespace SafeIn

/-- Gives parameters their values. -/
theorem bindParams {params : List Var} {l : Scoping}
    (h : List.Forall₂ (fun v (x : Var) => HasType Θ v x.ty) args params) :
    SafeTo Θ G [l] [params.foldl (fun l x => l.declare x.name x.ty) l]
      (forIn (params.zip args) PUnit.unit fun (x : Var × Value) _ => do
        Eval.modifyFrames (·.insert x.1.name x.2)
        return ForInStep.yield PUnit.unit) fun _ _ => True := by
  induction params generalizing Θ l args with
  | nil => exact pure trivial
  | cons x params ih =>
    obtain ⟨v, args, hv, hrest, rfl⟩ := List.forall₂_cons_right_iff.1 h
    rw [List.zip_cons_cons, List.forIn_cons]
    have hins : SafeTo Θ G [l] [l.declare x.name x.ty] (Eval.modifyFrames (·.insert x.name v))
        fun _ _ => True := modifyFrames fun fs hfs => hfs.insert hv
    simp only [bind_assoc, pure_bind]
    refine hins.bind (fun K hK => hK ▸ ⟨rfl, rfl⟩) fun Θ' K _ hle hK _ => ?_
    subst hK
    exact ih (hrest.imp fun _ _ h => h.mono hle)

/-- Gives the parameters of a handler their values, if those are of their types. -/
theorem bindEventParams {params : List Var} {l : Scoping} (hlen : params.length ≤ args.length)
    (hargs : ∀ v ∈ args, v.WellFormed Θ) :
    SafeTo Θ G [l] [params.foldl (fun l x => l.declare x.name x.ty) l]
      (forIn (params.zip args) PUnit.unit fun (x : Var × Value) _ => do
        if !x.1.ty.same x.2.typeOf then
          Eval.located x.1.token (Eval.fail (.panic (.anyConversion x.1.ty x.2.typeOf)))
        Eval.modifyFrames (·.insert x.1.name x.2)
        return ForInStep.yield PUnit.unit) fun _ _ => True := by
  induction params generalizing Θ l args with
  | nil => exact pure trivial
  | cons x params ih =>
    match args with
    | [] => cases hlen
    | v :: args =>
    simp only [List.zip_cons_cons, List.forIn_cons]
    cases hsame : x.ty.same v.typeOf with
    | false =>
      simp only [Bool.not_false, if_true, bind_assoc]
      exact SafeIn.bind (P := fun _ => False) (Q := fun _ _ => True) (.located (.fail rfl))
        (fun _ h => h.elim) fun _ _ _ _ h => h.elim
    | true =>
      simp only [Bool.not_true, Bool.false_eq_true, if_false, bind_assoc, pure_bind]
      have hv : HasType Θ v x.ty := ⟨hsame, hargs v List.mem_cons_self⟩
      have hins : SafeTo Θ G [l] [l.declare x.name x.ty] (Eval.modifyFrames (·.insert x.name v))
          fun _ _ => True := .modifyFrames fun fs hfs => hfs.insert hv
      refine hins.bind (fun K hK => hK ▸ ⟨rfl, rfl⟩) fun Θ' K _ hle hK _ => ?_
      subst hK
      exact ih (Nat.le_of_succ_le_succ hlen)
        fun u hu => (hargs u (List.mem_cons_of_mem v hu)).mono hle

end SafeIn

theorem Signature.safe_bind {f : Function} {F : Sigs} (hf : f.Checked F G)
    (hargs : ArgsTyped Θ args f.signature) :
    SafeTo Θ G [[]] [f.signature.scoping] (f.signature.bind args) fun _ _ => True := by
  have hsettled {t : Ty} {v : Value} (h : ArgTyped Θ v t) (ht : t.settled) : HasType Θ v t :=
    h.hasType (Ty.isGeneric_of_settled ht)
  unfold Signature.bind Signature.scoping
  unfold ArgsTyped at hargs
  cases hvar : f.signature.variadic with
  | none =>
    simp only [hvar] at hargs
    have hparams : List.Forall₂ (fun v (x : Var) => HasType Θ v x.ty) args f.signature.params := by
      rw [List.forall₂_map_right_iff] at hargs
      refine List.forall₂_iff_get.2 ⟨hargs.length_eq, fun i hi hi' => ?_⟩
      exact hsettled ((List.forall₂_iff_get.1 hargs).2 i hi hi') (hf.params _ (List.get_mem _ _))
    exact (SafeIn.bindParams hparams).bind (fun K hK => hK ▸ ⟨rfl, rfl⟩)
      fun Θ' K _ _ hK _ => .pureIn hK trivial
  | some x =>
    simp only [hvar] at hargs
    obtain ⟨hx, hnil⟩ := hf.variadic x hvar
    simp only [hnil, List.zip_nil_left, List.forIn_nil, pure_bind, List.length_nil, List.drop_zero]
    have hne : x.ty.kind = .none → False := Ty.kind_ne_none_of_settled hx
    refine (SafeIn.newArray (a := ⟨x.ty, false, fun h => (hne h).elim⟩) (Ty.same_refl _)
      (fun v hv => hsettled (hargs v hv) hx) (fun h => by cases h)).andThen fun Θ' rest _ hrest => ?_
    exact .modifyFrames fun fs hfs => hfs.insert hrest.1

theorem Handler.safe_bind {h : Handler} (hlen : h.params.length ≤ args.length)
    (hargs : ∀ v ∈ args, v.WellFormed Θ) :
    SafeTo Θ G [[]] [paramsScoping h.params] (h.bind args) fun _ _ => True :=
  (SafeIn.bindEventParams hlen hargs).bind (fun _ hK => hK ▸ ⟨rfl, rfl⟩)
    fun _ _ _ _ hK _ => .pureIn hK trivial

/-! ### Calls -/

theorem Block.terminates_eq (b : Block) : b.terminates = anyTerminates b.stmts := by
  cases b
  rfl

theorem Function.safe_call {F : Sigs} {f : Function} {invoke : Invoke} {fuel : Nat}
    (hinvoke : SafeInvoke F G invoke) (hc : f.Checked F G)
    (hf : Stmt.allFitted F f.signature.result f.body.stmts) (hargs : ArgsTyped Θ args f.signature) :
    Safe Θ G L (f.call invoke fuel args) fun Θ' v => HasType Θ' v f.signature.result := by
  have hterminates := hc.terminates
  rw [Block.terminates_eq] at hterminates
  refine .inBody (P := fun _ => True) ?_
  refine (Signature.safe_bind hc hargs).bind (fun K hK => hK ▸ ⟨rfl, rfl⟩) fun Θ' K _ _ hK _ => ?_
  subst hK
  refine (Stmt.safe_runAll hinvoke f.body.stmts hc.body hf).bind (fun _ => id)
    fun Θ'' K flow _ _ hflow => ?_
  cases flow with
  | ret v =>
    obtain ⟨τ, hτ, hv⟩ := hflow
    cases hτ
    exact .pureIn trivial hv
  | next =>
    refine .pureIn trivial (.none (hterminates.resolve_right fun h => ?_))
    rw [show anyTerminates f.body.stmts = false from hflow] at h
    cases h
  | brk => cases hflow

variable {p : Program} (hc : p.Checked G) (hf : p.fitted)
include hc hf

/-- Calls are safe if those at a lower depth are. -/
theorem Program.safe_invoke_of {fuel : Nat}
    (ih : ∀ n, fuel = n + 1 → SafeInvoke p.func? G (invoke p.funcs n)) :
    SafeInvoke p.func? G (invoke p.funcs fuel) := by
  simp only [Program.fitted, Bool.and_eq_true, List.all_eq_true] at hf
  refine ⟨fun {Θ L name sig args} hF hargs => ?_, fun {Θ L name args} hF => ?_⟩ <;>
    unfold Program.func? at hF <;> unfold invoke <;>
    cases hb : Builtin.ofName? name <;> simp only [hb] at hF ⊢
  · obtain ⟨f, hfind, rfl⟩ := Option.map_eq_some_iff.1 hF
    have hmem := List.mem_of_find?_eq_some hfind
    have hname : f.signature.name = name := by simpa using List.find?_some hfind
    rw [hfind]
    cases fuel with
    | zero => exact .throw rfl
    | succ n =>
      exact Function.safe_call (ih n rfl) (hc.funcs f hmem (hname ▸ hb)) (hf.1.2 f hmem) hargs
  · cases hF
    exact .callBuiltin hc.errors _ hargs
  · rw [Option.map_eq_none_iff.1 hF]
    exact .fail rfl
  · cases hF

/-- The calls of a program. -/
theorem Program.safe_invoke (fuel : Nat) : SafeInvoke p.func? G (invoke p.funcs fuel) := by
  induction fuel with
  | zero => exact Program.safe_invoke_of hc hf fun n hn => by cases hn
  | succ fuel ih =>
    refine Program.safe_invoke_of hc hf fun n hn => ?_
    cases hn
    exact ih

theorem Program.safe_run (fuel : Nat) : Safe Θ G [] (p.run fuel) fun _ _ => True := by
  have hf' := hf
  simp only [Program.fitted, Bool.and_eq_true] at hf'
  refine (Stmt.safe_runAll (Program.safe_invoke hc hf fuel) p.stmts hc.stmts hf'.1.1).bind
    (fun _ => id) fun Θ' K _ _ hK _ => .pureIn (List.length_eq_zero_iff.1 hK.length) trivial

theorem Handler.safe_run {h : Handler} (hh : h ∈ p.handlers) (fuel : Nat)
    (hlen : h.params.length ≤ args.length) (hargs : ∀ v ∈ args, v.WellFormed Θ) :
    Safe Θ G L (h.run p.funcs fuel args) fun _ _ => True := by
  have hf' := hf
  simp only [Program.fitted, Bool.and_eq_true, List.all_eq_true] at hf'
  refine .inBody (P := fun _ => True) ?_
  refine (Handler.safe_bind hlen hargs).bind (fun K hK => hK ▸ ⟨rfl, rfl⟩) fun Θ' K _ _ hK _ => ?_
  subst hK
  exact (Stmt.safe_runAll (Program.safe_invoke hc hf fuel) h.body.stmts (hc.handlers h hh)
    (hf'.2 h hh)).bind (fun _ => id) fun Θ'' K _ _ _ _ => .pureIn trivial trivial

end

end TinyScript
