import TinyScript.Proofs.Eval.Parts
import TinyScript.Proofs.Typing.Programs

/-!
# Parts of well-typed programs

Each part of a checked and fitted program runs on machines that keep to the types of the blocks that it
stands in (`Point.Typed`): when a part enters another one, the latter is one again (`Enters.typed`). So
every expression that is evaluated on the way has a value of its type.
-/

namespace TinyScript

section
variable {α : Type} {F : Sigs} {G : Vars} {Θ : StoreTy} {L : List Scoping} {σ σ' : Machine}

/-- What a safe evaluation leaves, when it returns. -/
theorem SafeIn.returns {P : List Scoping → Prop} {m : Eval α} {Q : StoreTy → α → Prop} {a : α}
    (h : SafeIn Θ G L P m Q) (hσ : MachineTyped Θ G L σ) (hm : m.Returns σ a σ') :
    ∃ Θ' L', Θ ≤ Θ' ∧ P L' ∧ MachineTyped Θ' G L' σ' ∧ Q Θ' a := by
  have := h σ hσ
  rw [show m.run.run σ = _ from hm] at this
  exact this

/-- What a safe evaluation that declares nothing leaves, when it returns. -/
theorem Safe.returns {m : Eval α} {Q : StoreTy → α → Prop} {a : α} (h : Safe Θ G L m Q)
    (hσ : MachineTyped Θ G L σ) (hm : m.Returns σ a σ') :
    ∃ Θ', Θ ≤ Θ' ∧ MachineTyped Θ' G L σ' ∧ Q Θ' a := by
  obtain ⟨Θ', L', hle, rfl, hσ', ha⟩ := SafeIn.returns h hσ hm
  exact ⟨Θ', hle, hσ', ha⟩

/-! ### Parts -/

/-- An expression with these variables in scope has the right types in it. -/
structure Expr.Typed (F : Sigs) (V : Vars) (e : Expr) : Prop where
  checked : e.Checked F V
  fitted : e.fitted F

/-- A loop that stands in blocks `L` once it runs, whose innermost one is that of the loop variable. -/
def LoopBody.Typed (F : Sigs) (G : Vars) (L : List Scoping) (l : LoopBody) : Prop :=
  ∃ L₀ result, SafeIn.InRounds L₀ l.var L ∧
    l.body.Checked F G result (loopScoping l.var :: L₀) true ∧
    l.body.fitted F (result.getD .none)

/-- The type of the loop variable, if there is one. -/
def LoopBody.ty? (l : LoopBody) : Option Ty :=
  l.var.map (·.ty)

/-- The types are right in a part that stands in blocks `L`, and in the values that it has. -/
def Part.Typed (F : Sigs) (G : Vars) (Θ : StoreTy) (L : List Scoping) : Part → Prop
  | .expr e => e.Typed F (varTy? G L)
  | .exprs es => ∀ e ∈ es, e.Typed F (varTy? G L)
  | .numbers es => ∀ e ∈ es, e.ty.same .num ∧ e.Typed F (varTy? G L)
  | .call name args => ∀ sig, F name = some sig → ArgsTyped Θ args sig
  | .stmt s => ∃ result inLoop, s.Checked F G result L inLoop ∧ s.fitted F (result.getD .none)
  | .stmts ss => ∃ result inLoop, Stmt.AllChecked F G result L inLoop ss ∧
      Stmt.allFitted F (result.getD .none) ss
  | .block b => ∃ result inLoop, b.Checked F G result L inLoop ∧ b.fitted F (result.getD .none)
  | .branch b => ∃ result inLoop, b.Checked F G result L inLoop ∧ b.fitted F (result.getD .none)
  | .branches bs => ∃ result inLoop, Branch.AllChecked F G result L inLoop bs ∧
      Branch.allFitted F (result.getD .none) bs
  | .whileLoop b _ => ∃ result, b.Checked F G result L true ∧ b.fitted F (result.getD .none)
  | .range r l => r.Checked F (varTy? G L) l.ty? ∧ r.fitted F l.ty? ∧ l.Typed F G L
  | .round l v => (∀ t, l.ty? = some t → HasType Θ v t) ∧ l.Typed F G L
  | .countLoop l _ _ _ _ => (∀ t, l.ty? = some t → t.same .num) ∧ l.Typed F G L
  | .arrayLoop l ref _ _ => (∃ a, Θ.arrays[ref]? = some a ∧
      (a.isEmpty ∨ ∀ t, l.ty? = some t → t.same a.elem)) ∧ l.Typed F G L
  | .textLoop l _ | .mapLoop l _ _ => (∀ t, l.ty? = some t → t.same .string) ∧ l.Typed F G L

/-- A part runs where the types of values are those of the blocks it stands in. -/
def Point.Typed (F : Sigs) (G : Vars) (a : Point) : Prop :=
  ∃ Θ L, MachineTyped Θ G L a.machine ∧ a.part.Typed F G Θ L

/-! ### Operands -/

section
variable {V : Vars}

theorem Expr.typed_of_allChecked {es : List Expr} (hc : Expr.AllChecked F V es)
    (hf : Expr.allFitted F es) : ∀ e ∈ es, e.Typed F V := by
  induction es with
  | nil => intro e he; cases he
  | cons e es ih =>
    rw [Expr.allFitted, Bool.and_eq_true] at hf
    exact List.forall_mem_cons.2 ⟨⟨hc.1, hf.1⟩, ih hc.2 hf.2⟩

theorem Expr.allChecked_of_typed {es : List Expr} (h : ∀ e ∈ es, e.Typed F V) :
    Expr.AllChecked F V es ∧ Expr.allFitted F es := by
  induction es with
  | nil => exact ⟨trivial, rfl⟩
  | cons e es ih =>
    obtain ⟨he, hes⟩ := List.forall_mem_cons.1 h
    obtain ⟨hc, hf⟩ := ih hes
    exact ⟨⟨he.checked, hc⟩, by rw [Expr.allFitted, he.fitted, hf]; rfl⟩

theorem Expr.typed_of_pairsChecked {ps : List (String × Expr)} (hc : Expr.PairsChecked F V ps)
    (hf : Expr.pairsFitted F ps) : ∀ e ∈ ps.map (·.2), e.Typed F V := by
  induction ps with
  | nil => intro e he; cases he
  | cons p ps ih =>
    rw [Expr.pairsFitted, Bool.and_eq_true] at hf
    exact List.forall_mem_cons.2 ⟨⟨hc.1, hf.1⟩, ih hc.2 hf.2⟩

theorem Expr.typed_of_boundChecked {e : Option Expr} (hc : Expr.BoundChecked F V e)
    (hf : Expr.boundFitted F e) : ∀ x ∈ e.toList, x.ty.same .num ∧ x.Typed F V := by
  cases e with
  | none => intro x hx; cases hx
  | some e => simpa using And.intro hc.1 (Expr.Typed.mk hc.2 hf)

theorem Expr.Typed.operands {e : Expr} (h : e.Typed F V) : ∀ x ∈ e.operands, x.Typed F V := by
  obtain ⟨hc, hf⟩ := h
  have one {x : Expr} (hc : x.Checked F V) (hf : x.fitted F) : ∀ y ∈ [x], y.Typed F V :=
    List.forall_mem_singleton.2 ⟨hc, hf⟩
  cases e with
  | var | num | str | bool => intro x hx; cases hx
  | array m layout elems =>
    rw [Expr.fitted, Bool.and_eq_true] at hf
    exact Expr.typed_of_allChecked hc.2 hf.2
  | map m layout pairs =>
    rw [Expr.fitted, Bool.and_eq_true] at hf
    exact Expr.typed_of_pairsChecked hc.2 hf.2
  | call m name args result =>
    rw [Expr.fitted, Bool.and_eq_true] at hf
    exact Expr.typed_of_allChecked hc.2 hf.2
  | unary m op operand => exact one hc.2.2 hf
  | binary m op tight left right =>
    simp only [Expr.fitted, Bool.and_eq_true] at hf
    exact one hc.2.1 hf.1.2
  | index m left key =>
    rw [Expr.fitted, Bool.and_eq_true] at hf
    exact List.forall_mem_cons.2 ⟨⟨hc.2.1, hf.1⟩, one hc.2.2 hf.2⟩
  | slice m left start stop =>
    simp only [Expr.fitted, Bool.and_eq_true] at hf
    exact one hc.2.2.1 hf.1.1
  | dot m left key => exact one hc.2.2 hf
  | group m inner =>
    rw [Expr.fitted, Bool.and_eq_true] at hf
    exact one (x := inner) hc hf.2
  | assert m left => exact one hc.2.2 hf
  | any m inner =>
    rw [Expr.fitted, Bool.and_eq_true] at hf
    exact one hc.2 hf.2

theorem Expr.Typed.targetOperands {e : Expr} (h : e.Typed F V) :
    ∀ x ∈ e.targetOperands, x.Typed F V := by
  cases e with
  | index | dot => exact h.operands
  | _ => intro x hx; cases hx

theorem Stmt.typed_operands {s : Stmt} {result : Option Ty} {inLoop : Bool}
    (hc : s.Checked F G result L inLoop) (hf : s.fitted F (result.getD .none)) :
    ∀ e ∈ s.operands, e.Typed F (varTy? G L) := by
  have one {x : Expr} (hc : x.Checked F (varTy? G L)) (hf : x.fitted F) :
      ∀ y ∈ [x], y.Typed F (varTy? G L) := List.forall_mem_singleton.2 ⟨hc, hf⟩
  cases s with
  | typedDecl token comment var value | inferredDecl token comment var value =>
    rw [Stmt.fitted, Bool.and_eq_true] at hf
    exact one hc.1 hf.2
  | assign token comment target value =>
    simp only [Stmt.fitted, Bool.and_eq_true] at hf
    exact one hc.1 hf.1.2
  | call token comment name args ty =>
    rw [Stmt.fitted, Bool.and_eq_true] at hf
    exact Expr.typed_of_allChecked hc.2 hf.2
  | ret token comment value =>
    cases value with
    | none => intro x hx; cases hx
    | some value =>
      rw [Stmt.fitted, Bool.and_eq_true] at hf
      exact one hc.2 hf.2
  | _ => intro x hx; cases hx

end

/-! ### What evaluations leave -/

/-- A statement is begun where the types stay what they are. -/
theorem MachineTyped.begun (hσ : MachineTyped Θ G L σ) (htick : Eval.tick.Returns σ () σ') :
    ∃ Θ', MachineTyped Θ' G L σ' := by
  obtain ⟨Θ', -, hσ', -⟩ := Safe.returns SafeIn.tick hσ htick
  exact ⟨Θ', hσ'⟩

section
variable {invoke : Invoke} (hinvoke : SafeInvoke F G invoke)
include hinvoke

theorem Expr.Typed.returns {e : Expr} {v : Value} (he : e.Typed F (varTy? G L))
    (hσ : MachineTyped Θ G L σ) (hv : (e.eval invoke).Returns σ v σ') :
    ∃ Θ', MachineTyped Θ' G L σ' ∧ ValueOf Θ' v e := by
  obtain ⟨Θ', -, hσ', hval⟩ :=
    Safe.returns (a := v) (Expr.safe_eval hinvoke e he.checked he.fitted) hσ hv
  exact ⟨Θ', hσ', hval⟩

theorem Range.over_returns {e : Expr} {τ : Option Ty} {v : Value}
    (hc : (Range.over e).Checked F (varTy? G L) τ) (hf : (Range.over e).fitted F τ)
    (hσ : MachineTyped Θ G L σ) (hv : (e.eval invoke).Returns σ v σ') :
    ∃ Θ', MachineTyped Θ' G L σ' ∧ Ranged Θ' τ v := by
  have hfe := hf
  rw [Range.fitted, Bool.and_eq_true] at hfe
  obtain ⟨Θ', hσ', hval⟩ := Expr.Typed.returns hinvoke ⟨hc.1, hfe.1⟩ hσ hv
  exact ⟨Θ', hσ', Range.ranged hc hf hval.hasType⟩

/-- What a round of a loop leaves. -/
theorem LoopBody.Typed.returns {l : LoopBody} {fuel : Nat} {v : Value} {flow : Flow}
    (h : l.Typed F G L) (hσ : MachineTyped Θ G L σ)
    (hv : ∀ t, l.ty? = some t → HasType Θ v t) (hr : (l.round invoke fuel v).Returns σ flow σ') :
    ∃ Θ' L', Θ ≤ Θ' ∧ MachineTyped Θ' G L' σ' ∧ l.Typed F G L' := by
  obtain ⟨L₀, result, hL, hc, hf⟩ := h
  have hround : SafeIn Θ G L _ (l.round invoke fuel v) _ :=
    SafeIn.round hL hv fun Θ' => Block.safe_run hinvoke l.body hc hf
  obtain ⟨Θ', L', hle, hL', hσ', -⟩ := hround.returns hσ hr
  exact ⟨Θ', L', hle, hσ', L₀, result, hL', hc, hf⟩

end

end

/-! ### From part to part -/

section
variable {p : Program} {G : Vars} (hc : p.Checked G) (hf : p.fitted)
include hc hf

/-- The body of a function that is called stands in the block of its parameters. -/
theorem Program.typed_body {Θ : StoreTy} {L : List Scoping} {σ σ' : Machine} {f : Function}
    {name : String} {args : List Value} (hbuiltin : Builtin.ofName? name = none)
    (hfind : p.funcs.find? (·.signature.name == name) = some f)
    (hσ : MachineTyped Θ G L σ) (hargs : (Part.call name args).Typed p.func? G Θ L)
    (hbind : (f.signature.bind args).Returns { σ with frames := σ.frames.enterBody } () σ') :
    ∃ Θ' L', MachineTyped Θ' G L' σ' ∧ (Part.stmts f.body.stmts).Typed p.func? G Θ' L' := by
  have hmem := List.mem_of_find?_eq_some hfind
  have hname : f.signature.name = name := by simpa using List.find?_some hfind
  have hsig : p.func? name = some f.signature := by
    rw [Program.func?, hbuiltin, hfind]
    rfl
  have hf' := hf
  simp only [Program.fitted, Bool.and_eq_true, List.all_eq_true] at hf'
  have hchecked := hc.funcs f hmem (hname ▸ hbuiltin)
  obtain ⟨Θ', L', -, rfl, hσ', -⟩ :=
    (Signature.safe_bind hchecked (hargs f.signature hsig)).returns hσ.enterBody hbind
  exact ⟨Θ', _, hσ', some f.signature.result, false, hchecked.body, hf'.1.2 f hmem⟩

/-- What a call is given when its arguments are evaluated. -/
theorem Program.typed_call {Θ : StoreTy} {L : List Scoping} {σ σ' : Machine} {n : Nat} {name : String}
    {args : List Expr} {vs : Array Value} (hσ : MachineTyped Θ G L σ)
    (hcount : ∀ sig, p.func? name = some sig → sig.TakesCount args.length)
    (hfit : (p.func? name).all (·.argumentsFit args)) (hargs : ∀ e ∈ args, e.Typed p.func? (varTy? G L))
    (hvs : (Expr.evalList (invoke p.funcs n) #[] args).Returns σ vs σ') :
    ∃ Θ', MachineTyped Θ' G L σ' ∧ (Part.call name vs.toList).Typed p.func? G Θ' L := by
  obtain ⟨hca, hfa⟩ := Expr.allChecked_of_typed hargs
  obtain ⟨Θ', -, hσ', hvals⟩ :=
    Safe.returns (Expr.safe_evalList (Program.safe_invoke hc hf n) args hca hfa .nil) hσ hvs
  refine ⟨Θ', hσ', fun sig hsig => ?_⟩
  exact argsTyped_of_argumentsFit (hcount sig hsig) (by simpa [hsig] using hfit) hvals

theorem Point.EntersExpr.typed {a b : Point} (h : EntersExpr p.funcs a b) (ha : a.Typed p.func? G) :
    b.Typed p.func? G := by
  have hinvoke := Program.safe_invoke hc hf
  obtain ⟨Θ, L, hσ, ha⟩ := ha
  cases h with
  | operands => exact ⟨Θ, L, hσ, ha.operands⟩
  | @right n m op tight left right σ v σ' hv hop =>
    obtain ⟨Θ', hσ', -⟩ := (ha.operands left List.mem_cons_self).returns (hinvoke n) hσ hv
    obtain ⟨hc, hf⟩ := ha
    simp only [Expr.fitted, Bool.and_eq_true] at hf
    exact ⟨Θ', L, hσ', hc.2.2, hf.2⟩
  | @bounds n m left start stop σ v σ' hv =>
    obtain ⟨Θ', hσ', -⟩ := (ha.operands left List.mem_cons_self).returns (hinvoke n) hσ hv
    obtain ⟨hc, hf⟩ := ha
    simp only [Expr.fitted, Bool.and_eq_true] at hf
    exact ⟨Θ', L, hσ', List.forall_mem_append.2
      ⟨Expr.typed_of_boundChecked hc.2.2.2.1 hf.1.2, Expr.typed_of_boundChecked hc.2.2.2.2 hf.2⟩⟩
  | callee hvs =>
    have hf' := ha.fitted
    simp only [Expr.fitted, Bool.and_eq_true] at hf'
    obtain ⟨Θ', hσ', hcall⟩ := Program.typed_call hc hf hσ
      (fun sig hF => (ha.checked.1 sig hF).1) hf'.1 ha.operands hvs
    exact ⟨Θ', L, hσ', hcall⟩
  | head => exact ⟨Θ, L, hσ, ha _ List.mem_cons_self⟩
  | @tail n e es σ v σ' hv =>
    obtain ⟨Θ', hσ', -⟩ := (ha e List.mem_cons_self).returns (hinvoke n) hσ hv
    exact ⟨Θ', L, hσ', fun x hx => ha x (List.mem_cons_of_mem _ hx)⟩
  | number => exact ⟨Θ, L, hσ, (ha _ List.mem_cons_self).2⟩
  | @nextNumber n e es σ x σ' hx =>
    obtain ⟨hnum, he⟩ := ha e List.mem_cons_self
    obtain ⟨Θ', -, hσ', -⟩ :=
      Safe.returns (Expr.safe_evalNumber (hinvoke n) e hnum he.checked he.fitted) hσ hx
    exact ⟨Θ', L, hσ', fun y hy => ha y (List.mem_cons_of_mem _ hy)⟩
  | body hbuiltin hfind hbind =>
    exact Program.typed_body hc hf hbuiltin hfind hσ ha hbind

theorem Point.EntersStmt.typed {a b : Point} (h : EntersStmt p.funcs a b) (ha : a.Typed p.func? G) :
    b.Typed p.func? G := by
  have hinvoke := Program.safe_invoke hc hf
  obtain ⟨Θ, L, hσ, ha⟩ := ha
  cases h with
  | stmtOperands htick =>
    obtain ⟨result, inLoop, hcs, hfs⟩ := ha
    obtain ⟨Θ₁, hσ₁⟩ := hσ.begun htick
    exact ⟨Θ₁, L, hσ₁, Stmt.typed_operands hcs hfs⟩
  | @target n token comment target value σ σ₁ v σ₂ htick hv =>
    obtain ⟨result, inLoop, hcs, hfs⟩ := ha
    obtain ⟨Θ₁, hσ₁⟩ := hσ.begun htick
    obtain ⟨Θ₂, hσ₂, -⟩ :=
      (Stmt.typed_operands hcs hfs value List.mem_cons_self).returns (hinvoke n) hσ₁ hv
    rw [Stmt.fitted, Bool.and_eq_true] at hfs
    exact ⟨Θ₂, L, hσ₂, Expr.Typed.targetOperands ⟨hcs.2.1, hfs.2⟩⟩
  | stmtCallee htick hvs =>
    obtain ⟨result, inLoop, hcs, hfs⟩ := ha
    obtain ⟨Θ₁, hσ₁⟩ := hσ.begun htick
    have hargs := Stmt.typed_operands hcs hfs
    rw [Stmt.fitted, Bool.and_eq_true] at hfs
    obtain ⟨Θ₂, hσ₂, hcall⟩ := Program.typed_call hc hf hσ₁ hcs.1 hfs.1 hargs hvs
    exact ⟨Θ₂, L, hσ₂, hcall⟩
  | firstBranch htick =>
    obtain ⟨result, inLoop, hcs, hfs⟩ := ha
    obtain ⟨Θ₁, hσ₁⟩ := hσ.begun htick
    simp only [Stmt.fitted, Bool.and_eq_true] at hfs
    exact ⟨Θ₁, L, hσ₁, result, inLoop, hcs.1, hfs.1.1⟩
  | @moreBranches n token comment first more last σ σ₁ σ₂ htick hfirst =>
    obtain ⟨result, inLoop, hcs, hfs⟩ := ha
    obtain ⟨Θ₁, hσ₁⟩ := hσ.begun htick
    simp only [Stmt.fitted, Bool.and_eq_true] at hfs
    obtain ⟨Θ₂, -, hσ₂, -⟩ :=
      Safe.returns (Branch.safe_run (hinvoke n) first hcs.1 hfs.1.1) hσ₁ hfirst
    exact ⟨Θ₂, L, hσ₂, result, inLoop, hcs.2.1, hfs.1.2⟩
  | @lastBlock n token comment first more last σ σ₁ σ₂ σ₃ htick hfirst hmore =>
    obtain ⟨result, inLoop, hcs, hfs⟩ := ha
    obtain ⟨Θ₁, hσ₁⟩ := hσ.begun htick
    simp only [Stmt.fitted, Bool.and_eq_true] at hfs
    obtain ⟨Θ₂, -, hσ₂, -⟩ :=
      Safe.returns (Branch.safe_run (hinvoke n) first hcs.1 hfs.1.1) hσ₁ hfirst
    obtain ⟨Θ₃, -, hσ₃, -⟩ :=
      Safe.returns (Branch.safe_runFirst (hinvoke n) more hcs.2.1 hfs.1.2) hσ₂ hmore
    exact ⟨Θ₃, L, hσ₃, result, inLoop, hcs.2.2, hfs.2⟩
  | loop htick =>
    obtain ⟨result, inLoop, hcs, hfs⟩ := ha
    obtain ⟨Θ₁, hσ₁⟩ := hσ.begun htick
    exact ⟨Θ₁, L, hσ₁, result, hcs, hfs⟩
  | each htick =>
    obtain ⟨result, inLoop, hcs, hfs⟩ := ha
    obtain ⟨Θ₁, hσ₁⟩ := hσ.begun htick
    simp only [Stmt.fitted, Bool.and_eq_true] at hfs
    exact ⟨Θ₁, [] :: L, ⟨hσ₁.store, hσ₁.frames.nest⟩, hcs.1, hfs.1, L, result,
      ⟨[], rfl, .inl rfl⟩, hcs.2, hfs.2⟩
  | stmtHead =>
    obtain ⟨result, inLoop, hcs, hfs⟩ := ha
    rw [Stmt.allFitted, Bool.and_eq_true] at hfs
    exact ⟨Θ, L, hσ, result, inLoop, hcs.1, hfs.1⟩
  | @stmtTail n s ss σ σ' hs =>
    obtain ⟨result, inLoop, hcs, hfs⟩ := ha
    rw [Stmt.allFitted, Bool.and_eq_true] at hfs
    obtain ⟨Θ', L', -, rfl, hσ', -⟩ := (Stmt.safe_run (hinvoke n) s hcs.1 hfs.1).returns hσ hs
    exact ⟨Θ', _, hσ', result, inLoop, hcs.2, hfs.2⟩
  | block =>
    obtain ⟨result, inLoop, hcb, hfb⟩ := ha
    exact ⟨Θ, [] :: L, ⟨hσ.store, hσ.frames.nest⟩, result, inLoop, hcb, hfb⟩
  | test =>
    obtain ⟨result, inLoop, hcb, hfb⟩ := ha
    rw [Branch.fitted, Bool.and_eq_true] at hfb
    exact ⟨Θ, L, hσ, hcb.1, hfb.1⟩
  | @branchBody n token comment test body σ v σ' hv htrue =>
    obtain ⟨result, inLoop, hcb, hfb⟩ := ha
    rw [Branch.fitted, Bool.and_eq_true] at hfb
    obtain ⟨Θ', hσ', -⟩ := Expr.Typed.returns (hinvoke n) ⟨hcb.1, hfb.1⟩ hσ hv
    exact ⟨Θ', L, hσ', result, inLoop, hcb.2.2, hfb.2⟩
  | branchHead =>
    obtain ⟨result, inLoop, hcb, hfb⟩ := ha
    rw [Branch.allFitted, Bool.and_eq_true] at hfb
    exact ⟨Θ, L, hσ, result, inLoop, hcb.1, hfb.1⟩
  | @branchTail n b bs σ σ' hb =>
    obtain ⟨result, inLoop, hcb, hfb⟩ := ha
    rw [Branch.allFitted, Bool.and_eq_true] at hfb
    obtain ⟨Θ', -, hσ', -⟩ := Safe.returns (Branch.safe_run (hinvoke n) b hcb.1 hfb.1) hσ hb
    exact ⟨Θ', L, hσ', result, inLoop, hcb.2, hfb.2⟩
  | whileRound =>
    obtain ⟨result, hcb, hfb⟩ := ha
    exact ⟨Θ, L, hσ, result, true, hcb, hfb⟩
  | @whileNext n b k σ σ' hb =>
    obtain ⟨result, hcb, hfb⟩ := ha
    obtain ⟨Θ', -, hσ', -⟩ := Safe.returns (Branch.safe_run (hinvoke n) b hcb hfb) hσ hb
    exact ⟨Θ', L, hσ', result, hcb, hfb⟩

theorem Point.EntersLoop.typed {a b : Point} (h : EntersLoop p.funcs a b) (ha : a.Typed p.func? G) :
    b.Typed p.func? G := by
  have hinvoke := Program.safe_invoke hc hf
  obtain ⟨Θ, L, hσ, ha⟩ := ha
  cases h with
  | steps =>
    obtain ⟨⟨hstart, hstop, hstride, -⟩, hfr, -⟩ := ha
    simp only [Range.fitted, Bool.and_eq_true] at hfr
    exact ⟨Θ, L, hσ, List.forall_mem_append.2 ⟨Expr.typed_of_boundChecked hstart hfr.1.1,
      List.forall_mem_cons.2 ⟨⟨hstop.1, hstop.2, hfr.1.2⟩,
        Expr.typed_of_boundChecked hstride hfr.2⟩⟩⟩
  | @counting n start stop stride l σ x σ₁ last σ₂ step σ₃ hx hlast hstep hzero =>
    obtain ⟨⟨hstart, hstop, hstride, hτ⟩, hfr, hl⟩ := ha
    simp only [Range.fitted, Bool.and_eq_true] at hfr
    obtain ⟨Θ₁, -, hσ₁, -⟩ :=
      Safe.returns (Expr.safe_evalNumberOr (hinvoke n) start hstart hfr.1.1) hσ hx
    obtain ⟨Θ₂, -, hσ₂, -⟩ :=
      Safe.returns (Expr.safe_evalNumber (hinvoke n) stop hstop.1 hstop.2 hfr.1.2) hσ₁ hlast
    obtain ⟨Θ₃, -, hσ₃, -⟩ :=
      Safe.returns (Expr.safe_evalNumberOr (hinvoke n) stride hstride hfr.2) hσ₂ hstep
    exact ⟨Θ₃, L, hσ₃, hτ, hl⟩
  | ranged =>
    obtain ⟨hcr, hfr, -⟩ := ha
    rw [Range.fitted, Bool.and_eq_true] at hfr
    exact ⟨Θ, L, hσ, hcr.1, hfr.1⟩
  | @overArray n e l σ v ref ty σ' hv harray =>
    obtain ⟨Θ', hσ', hval⟩ := Range.over_returns (hinvoke n) ha.1 ha.2.1 hσ hv
    cases hval with
    | array hr hτ =>
      cases harray
      exact ⟨Θ', L, hσ', ⟨_, hr, hτ⟩, ha.2.2⟩
    | text | map => cases harray
  | @overText n e l σ v s σ' hv htext =>
    obtain ⟨Θ', hσ', hval⟩ := Range.over_returns (hinvoke n) ha.1 ha.2.1 hσ hv
    cases hval with
    | text hτ => exact ⟨Θ', L, hσ', hτ, ha.2.2⟩
    | array | map => cases htext
  | @overMap n e l σ v ref ty σ' hv hmap =>
    obtain ⟨Θ', hσ', hval⟩ := Range.over_returns (hinvoke n) ha.1 ha.2.1 hσ hv
    cases hval with
    | map hτ => exact ⟨Θ', L, hσ', hτ, ha.2.2⟩
    | array | text => cases hmap
  | roundBody hvar =>
    obtain ⟨hv, L₀, result, hL, hcb, hfb⟩ := ha
    obtain ⟨Θ', L', -, rfl, hσ', -⟩ := (SafeIn.bindLoopVar hL hv).returns hσ hvar
    exact ⟨Θ', _, hσ', result, true, hcb, hfb⟩
  | countRound =>
    exact ⟨Θ, L, hσ, fun t ht => .num (ha.1 t ht) _, ha.2⟩
  | @countNext n l stop step k x σ σ' hx hround =>
    obtain ⟨Θ', L', -, hσ', hl⟩ :=
      ha.2.returns (hinvoke n) hσ (fun t ht => .num (ha.1 t ht) _) hround
    exact ⟨Θ', L', hσ', ha.1, hl⟩
  | arrayRound hv =>
    obtain ⟨⟨a, hr, hτ⟩, hl⟩ := ha
    exact ⟨Θ, L, hσ, hσ.store.hasType_elem hr hτ hv, hl⟩
  | @arrayNext n l ref k i σ v σ' hv hround =>
    obtain ⟨⟨a, hr, hτ⟩, hl⟩ := ha
    obtain ⟨Θ', L', hle, hσ', hl'⟩ :=
      hl.returns (hinvoke n) hσ (hσ.store.hasType_elem hr hτ hv) hround
    exact ⟨Θ', L', hσ', ⟨a, hle.arrays ref a hr, hτ⟩, hl'⟩
  | textRound =>
    exact ⟨Θ, L, hσ, fun t ht => .str (ha.1 t ht) _, ha.2⟩
  | @textNext n l c cs σ σ' hround =>
    obtain ⟨Θ', L', -, hσ', hl⟩ :=
      ha.2.returns (hinvoke n) hσ (fun t ht => .str (ha.1 t ht) _) hround
    exact ⟨Θ', L', hσ', ha.1, hl⟩
  | mapRound =>
    exact ⟨Θ, L, hσ, fun t ht => .str (ha.1 t ht) _, ha.2⟩
  | @mapNext n l ref key keys σ σ' hkey hround =>
    obtain ⟨Θ', L', -, hσ', hl⟩ :=
      ha.2.returns (hinvoke n) hσ (fun t ht => .str (ha.1 t ht) _) hround
    exact ⟨Θ', L', hσ', ha.1, hl⟩
  | mapSkip => exact ⟨Θ, L, hσ, ha⟩

/-- What a typed part enters is typed. -/
theorem Point.Enters.typed {a b : Point} (h : Enters p.funcs a b) (ha : a.Typed p.func? G) :
    b.Typed p.func? G := by
  cases h with
  | expr h => exact h.typed hc hf ha
  | stmt h => exact h.typed hc hf ha
  | loop h => exact h.typed hc hf ha

/-- So is all that runs in the course of a typed part. -/
theorem Point.typed_of_enters {a b : Point} (h : Relation.ReflTransGen (Enters p.funcs) a b)
    (ha : a.Typed p.func? G) : b.Typed p.func? G := by
  induction h with
  | refl => exact ha
  | tail _ h ih => exact h.typed hc hf ih

/-- The values of the expressions in it are of their types. -/
theorem Point.Evaluates.hasType {a : Point} {e : Expr} {v : Value} (h : a.Evaluates p.funcs e v)
    (ha : a.Typed p.func? G) : ∃ Θ, HasType Θ v e.ty := by
  obtain ⟨n, σ, σ', hsteps, hv⟩ := h
  obtain ⟨Θ, L, hσ, he⟩ := Point.typed_of_enters hc hf hsteps ha
  obtain ⟨Θ', -, hval⟩ := Expr.Typed.returns (Program.safe_invoke hc hf n) he hσ hv
  exact ⟨Θ', hval.hasType⟩

end

end TinyScript
