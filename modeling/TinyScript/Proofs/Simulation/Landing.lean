import TinyScript.Proofs.Simulation.Expressions
import TinyScript.Proofs.Typing.Statements

/-!
# Where the code of statements ends

The code of a statement goes on to the next place with the stack as it was, or leaves the loop with the
iterator of the loop dropped (`Lands`). `Runs` says that it does so whenever the evaluation of the statement
does. This is kept by declarations, assignments, blocks, branches and sequences.
-/

namespace TinyScript.Bytecode
open Symbols (SameNames SameOutside)

/-- The variables and the storage of the evaluator are mirrored. -/
structure InStep (sy : Symbols) (σ : Machine) (g : Array Cell) (st : Store Cell) : Prop where
  tracks : Tracks sy σ.frames g
  abreast : Abreast σ st

/-- An evaluator that keeps to its types and whose variables and storage are mirrored. -/
structure Mirrored (Θ : StoreTy) (G : Vars) (L : List Scoping) (sy : Symbols) (σ : Machine) (g : Array Cell)
    (st : Store Cell) : Prop where
  typed : MachineTyped Θ G L σ
  inStep : InStep sy σ g st

/-- What a table of names is where control leaves a sequence of statements. -/
def Inside (sy sy' : Symbols) : Prop :=
  sy.blocks ≠ [] → SameOutside sy sy'

/-- The machine is at place `q` if control goes on to the next statement, where the table is `sy'`, and at
place `x` without the iterator if it leaves the loop, where the table is in `B`. -/
def Lands (B : Symbols → Prop) (sy' : Symbols) (it : Bool) (stack : List Cell) (q x : Nat) (flow : Flow)
    (σ : Machine) (s : Conf) : Prop :=
  match flow with
  | .next => ∃ g st, s = ⟨q, stack, g, st⟩ ∧ InStep sy' σ g st
  | .brk => ∃ sy g st, s = ⟨x, stack.drop it.toNat, g, st⟩ ∧ B sy ∧ InStep sy σ g st
  | .ret _ => False

/-- The code from place `p` to place `q` runs what an evaluation does from table `sy` on. -/
def Runs (a : Assembly) (G : Vars) (L : List Scoping) (sy : Symbols) (B : Symbols → Prop) (sy' : Symbols)
    (it : Bool) (p q x : Nat) (m : Eval Flow) : Prop :=
  ∀ (Θ : StoreTy) (σ : Machine) (g : Array Cell) (st : Store Cell) (stack : List Cell),
    it.toNat ≤ stack.length → Mirrored Θ G L sy σ g st →
      Matches a m σ ⟨p, stack, g, st⟩ (Lands B sy' it stack q x)

section
variable {a : Assembly} {F : Sigs} {G : Vars} {L L' : List Scoping} {sy sy' sy'' : Symbols}
  {B B' : Symbols → Prop} {it : Bool} {p q r x : Nat} {m n : Eval Flow} {σ : Machine} {g : Array Cell}
  {st : Store Cell} {stack : List Cell} {Θ : StoreTy} {flow : Flow} {s : Conf}

theorem Mirrored.reads (h : Mirrored Θ G L sy σ g st) : Reads Θ G L sy σ g st :=
  ⟨h.typed, h.inStep.tracks.sees, h.inStep.abreast⟩

theorem InStep.of_sameNames (h : InStep sy σ g st) (hs : SameNames sy sy') : InStep sy' σ g st :=
  ⟨h.tracks.of_sameNames hs, h.abreast⟩

theorem InStep.nest (h : InStep sy σ g st) : InStep sy.nest { σ with frames := σ.frames.nest } g st :=
  ⟨h.tracks.nest, ⟨h.abreast.free.running, h.abreast.free.unlimited⟩, h.abreast.store⟩

theorem InStep.unnest (h : InStep sy' σ g st) (hsy : SameOutside sy.nest sy') :
    InStep sy'.unnest { σ with frames := σ.frames.unnest } g st :=
  ⟨h.tracks.unnest hsy.ne_nil, ⟨h.abreast.free.running, h.abreast.free.unlimited⟩, h.abreast.store⟩

/-- Nothing that is mirrored was changed by reading it. -/
theorem Mirrored.of_reads {σ' : Machine} {st' : Store Cell} {Θ' : StoreTy} (h : Mirrored Θ G L sy σ g st)
    (hframes : σ'.frames = σ.frames) (hσ' : Reads Θ' G L sy σ' g st') : Mirrored Θ' G L sy σ' g st' :=
  ⟨hσ'.typed, hframes ▸ h.inStep.tracks, hσ'.abreast⟩

theorem Inside.of_sameNames (h : SameNames sy sy') : Inside sy sy' :=
  h.outside

theorem Inside.trans (h : Inside sy sy') (h' : Inside sy' sy'') : Inside sy sy'' :=
  fun hsy => (h hsy).trans (h' (h hsy).ne_nil)

theorem Lands.mono (h : Lands B sy' it stack q x flow σ s) (hB : ∀ sy, B sy → B' sy)
    (hs : SameNames sy' sy'') : Lands B' sy'' it stack q x flow σ s := by
  cases flow with
  | next =>
    obtain ⟨g, st, hs', hstep⟩ := h
    exact ⟨g, st, hs', hstep.of_sameNames hs⟩
  | brk =>
    obtain ⟨sy, g, st, hs', hsy, hstep⟩ := h
    exact ⟨sy, g, st, hs', hB sy hsy, hstep⟩
  | ret => exact h

namespace Runs

theorem mono (h : Runs a G L sy B sy' it p q x m) (hB : ∀ sy, B sy → B' sy) (hs : SameNames sy' sy'') :
    Runs a G L sy B' sy'' it p q x m :=
  fun Θ σ g st stack hit hσ => (h Θ σ g st stack hit hσ).mono fun _ _ _ h => h.mono hB hs

theorem statement {token : Token} (h : Runs a G L sy B sy' it p q x m) :
    Runs a G L sy B sy' it p q x (Eval.statement token m) := by
  intro Θ σ g st stack hit hσ
  refine .statement hσ.inStep.abreast.free fun w hw hfree => ?_
  exact h Θ _ g st stack hit ⟨⟨hw.symm ▸ hσ.typed.store, hσ.typed.frames⟩, hσ.inStep.tracks, hfree,
    hw.symm ▸ hσ.inStep.abreast.store⟩

theorem next : Runs a G L sy B sy it p p x (pure .next) :=
  fun _ _ g st _ _ hσ => .pure ⟨g, st, rfl, hσ.inStep⟩

/-- A sequence. -/
theorem andThen {T : StoreTy → Flow → Prop} (hm : Runs a G L sy (SameNames sy) sy' it p q x m)
    (hsafe : ∀ Θ, SafeTo Θ G L L' m T) (hsy : Inside sy sy')
    (hn : Runs a G L' sy' (Inside sy') sy'' it q r x n) :
    Runs a G L sy (Inside sy) sy'' it p r x (m >>= fun flow => match flow with
      | .next => n
      | flow => pure flow) := by
  intro Θ σ g st stack hit hσ
  refine ((hm Θ σ g st stack hit hσ).typed (hsafe Θ) hσ.typed).bind fun flow σ' s hflow => ?_
  obtain ⟨hlands, Θ', K, -, rfl, htyped, -⟩ := hflow
  cases flow with
  | next =>
    obtain ⟨g', st', rfl, hstep⟩ := hlands
    exact (hn Θ' σ' g' st' stack hit ⟨htyped, hstep⟩).mono
      fun _ _ _ h => h.mono (fun _ => hsy.trans) (.refl _)
  | brk =>
    obtain ⟨sy₁, g', st', rfl, hsy₁, hstep⟩ := hlands
    exact .pure ⟨sy₁, g', st', rfl, .of_sameNames hsy₁, hstep⟩
  | ret => exact hlands.elim

/-- A block. -/
theorem nested (h : Runs a G ([] :: L) sy.nest (Inside sy.nest) sy' it p q x m)
    (hsy : SameOutside sy.nest sy') : Runs a G L sy (SameNames sy) sy'.unnest it p q x (Eval.nested m) := by
  intro Θ σ g st stack hit hσ
  have hnest : Mirrored Θ G ([] :: L) sy.nest { σ with frames := σ.frames.nest } g st :=
    ⟨⟨hσ.typed.store, hσ.typed.frames.nest⟩, hσ.inStep.nest⟩
  refine .nested ((h Θ _ g st stack hit hnest).mono fun flow τ s hflow => ?_)
  cases flow with
  | next =>
    obtain ⟨g', st', hs, hstep⟩ := hflow
    exact ⟨g', st', hs, hstep.unnest hsy⟩
  | brk =>
    obtain ⟨sy₁, g', st', hs, hsy₁, hstep⟩ := hflow
    have hout := hsy₁ (List.cons_ne_nil _ _)
    exact ⟨sy₁.unnest, g', st', hs, hout.unnest, hstep.unnest hout⟩
  | ret => exact hflow

/-- `break` drops the iterator of the loop, if there is one. -/
theorem brk {k : Nat} (hload : (Chunk.brk it).Loaded a k p x) (hB : B sy) :
    Runs a G L sy B sy' it p q x (pure .brk) := by
  intro Θ σ g st stack hit hσ
  cases it with
  | false =>
    obtain ⟨hjump, -⟩ := hload.placed
    exact .lead (.jump hjump) (.pure ⟨sy, g, st, rfl, hB, hσ.inStep⟩)
  | true =>
    obtain ⟨hdrop, hjump, -⟩ := hload.placed
    exact .lead ((Leads.drop hdrop hit).trans (.jump hjump)) (.pure ⟨sy, g, st, rfl, hB, hσ.inStep⟩)

end Runs

/-! ### Branches -/

/-- After a branch whose condition does not hold the machine is at place `q`, otherwise where its block
ends. -/
def BranchLands (G : Vars) (L : List Scoping) (sy : Symbols) (it : Bool) (stack : List Cell) (q r x : Nat)
    (sy' : Symbols) (o : Option Flow) (σ : Machine) (s : Conf) : Prop :=
  match o with
  | none => ∃ Θ g st, s = ⟨q, stack, g, st⟩ ∧ Mirrored Θ G L sy σ g st
  | some flow => Lands (SameNames sy) sy' it stack r x flow σ s

section
variable {invoke : Invoke} {fuel : Nat} {token : Token} {comment : Option String} {test : Expr} {body : Block}
  {rest : Eval Flow}

/-- A branch: a condition, a jump to place `q'` if it does not hold, a block, and a jump to place `r'`. -/
theorem matches_branch {q' r' : Nat} (hty : test.ty.same .bool)
    (htest : ∀ g, Computes a G L sy g p q (test.eval invoke) fun Θ v cs => ValueOf Θ v test ∧ Image v cs)
    (hskip : InstrAt a.code q ⟨.jumpNotTruthy, [q']⟩)
    (hbody : Runs a G L sy (SameNames sy) sy' it (q + 3) r x (body.run invoke fuel))
    (hjump : InstrAt a.code r ⟨.jump, [r']⟩) (hit : it.toNat ≤ stack.length) (hσ : Mirrored Θ G L sy σ g st) :
    Matches a ((Branch.mk token comment test body).run invoke fuel) σ ⟨p, stack, g, st⟩
      (BranchLands G L sy it stack q' r' x sy') := by
  refine (htest g).bind hσ.reads fun Θ' v cs σ' st' _ hframes hσ' hv => ?_
  obtain ⟨hv, c, rfl, hvc⟩ := hv
  obtain ⟨holds, rfl⟩ := hv.hasType.bool_inv (Ty.kind_eq_of_same hty)
  cases hvc
  refine .lead (.jumpNotTruthy hskip) (.bind (.pure (Q := fun b τ s => b = holds ∧ τ = σ' ∧ s = _)
    ⟨rfl, rfl, rfl⟩) fun b τ s hb => ?_)
  obtain ⟨rfl, rfl, rfl⟩ := hb
  have hkeeps := hσ.of_reads hframes hσ'
  cases b with
  | false => exact .pure ⟨Θ', g, st', rfl, hkeeps⟩
  | true =>
    refine (hbody Θ' τ g st' stack hit hkeeps).bind fun flow τ s hflow => ?_
    cases flow with
    | next =>
      obtain ⟨g', st'', rfl, hstep⟩ := hflow
      exact .lead (.jump hjump) (.pure ⟨g', st'', rfl, hstep⟩)
    | brk => exact .pure hflow
    | ret => exact hflow.elim

/-- A branch, or else what comes after it. -/
theorem Runs.arm {q' r' : Nat} (token : Token) (comment : Option String) (hty : test.ty.same .bool)
    (htest : ∀ g, Computes a G L sy g p q (test.eval invoke) fun Θ v cs => ValueOf Θ v test ∧ Image v cs)
    (hskip : InstrAt a.code q ⟨.jumpNotTruthy, [q']⟩)
    (hbody : Runs a G L sy (SameNames sy) sy' it (q + 3) r x (body.run invoke fuel))
    (hjump : InstrAt a.code r ⟨.jump, [r']⟩) (hs : SameNames sy' sy'')
    (hrest : Runs a G L sy (SameNames sy) sy'' it q' r' x rest) :
    Runs a G L sy (SameNames sy) sy'' it p r' x
      ((Branch.mk token comment test body).run invoke fuel >>= fun o => match o with
        | some flow => pure flow
        | none => rest) := by
  intro Θ σ g st stack hit hσ
  refine (matches_branch hty htest hskip hbody hjump hit hσ).bind fun o σ' s ho => ?_
  cases o with
  | none =>
    obtain ⟨Θ', g', st', rfl, hσ'⟩ := ho
    exact hrest Θ' σ' g' st' stack hit hσ'
  | some flow => exact .pure (Lands.mono ho (fun _ => id) hs)

end

/-! ### Declarations and assignments -/

/-- A declaration keeps the value on the stack in the slot that the variable gets. -/
theorem Runs.declare {invoke : Invoke} {var : Var} {value : Expr} (hsy : sy.FromEdits)
    (hany : var.ty.anyFree)
    (hvalue : ∀ g, Computes a G L sy g p q (value.eval invoke) fun Θ v cs => ValueOf Θ v value ∧ Image v cs)
    (hstore : InstrAt a.code q ⟨.setGlobal, [(sy.define var.name).1]⟩) :
    Runs a G L sy B (sy.define var.name).2 it p (q + 3) x (value.eval invoke >>= Eval.declare var) := by
  intro Θ σ g st stack hit hσ
  refine (hvalue g).bind hσ.reads fun Θ' v cs σ' st' _ hframes hσ' hv => ?_
  obtain ⟨-, c, rfl, hvc⟩ := hv
  have hlt : (sy.define var.name).1 < globalsSize := hstore.operand_lt Nat.one_pos
  have htracks : Tracks sy σ'.frames g := hframes ▸ hσ.inStep.tracks
  have hnot : ¬ var.ty.same .any := fun h => Ty.kind_ne_any hany (Ty.kind_eq_of_same h)
  unfold Eval.declare
  rw [if_neg hnot]
  refine .modify (.lead (.setGlobal hstore (htracks.size ▸ hlt)) (.pure ⟨_, st', rfl, ?_, ?_⟩))
  · exact htracks.define hsy var.name hlt hvc
  · exact ⟨⟨hσ'.abreast.free.running, hσ'.abreast.free.unlimited⟩, hσ'.abreast.store⟩

/-- The code that changes what an expression denotes to the value on top of the stack. -/
def targetChunk (sy : Symbols) : Expr → Chunk
  | .var _ name => .instr ⟨.setGlobal, [(sy.resolve? name).getD 0]⟩
  | .index _ left key => ((exprChunk sy left).seq (exprChunk sy key)).seq (.instr ⟨.setIndex, []⟩)
  | .dot _ left key => ((exprChunk sy left).seq (.const (.str key))).seq (.instr ⟨.setIndex, []⟩)
  | _ => .instr ⟨.drop, [1]⟩

theorem assignChunk_eq (sy : Symbols) (target value : Expr) :
    assignChunk sy target value = (exprChunk sy value).seq (targetChunk sy target) := by
  cases target <;> rfl

theorem matches_assign {invoke : Invoke} (hinvoke : SafeInvoke F G invoke) {k : Nat} {target : Expr} {v : Value}
    {c : Cell} (hc : target.Checked F (varTy? G L)) (ht : target.IsTarget) (hf : target.fitted F)
    (hany : target.anyFree) (hcode : target.Codable sy) (hsy : sy.FromEdits)
    (hload : (targetChunk sy target).Loaded a k p x) (hvc : Mirrors v c) (hσ : Mirrored Θ G L sy σ g st) :
    Matches a (target.assign invoke v) σ ⟨p, c :: stack, g, st⟩ fun _ σ' s =>
      ∃ g' st', s = ⟨p + (targetChunk sy target).size, stack, g', st'⟩ ∧ InStep sy σ' g' st' := by
  -- what an assignment to an element or a field does to the storage
  have hends {m : Eval Unit} {σ' : Machine} {s : Conf} (hframes : σ'.frames = σ.frames)
      (h : Matches a m σ' s (Ends σ' (p + (targetChunk sy target).size) stack g fun _ cs => cs = [])) :
      Matches a m σ' s fun _ σ'' s =>
        ∃ g' st', s = ⟨p + (targetChunk sy target).size, stack, g', st'⟩ ∧ InStep sy σ'' g' st' := by
    refine h.mono fun _ σ'' s h => ?_
    obtain ⟨cs, st', hs, hf, habreast, rfl⟩ := h
    exact ⟨g, st', hs, (hf.trans hframes) ▸ hσ.inStep.tracks, habreast⟩
  cases target with
  | var m name =>
    obtain ⟨slot, hslot⟩ := hcode
    have hi := hload.instr
    rw [hslot] at hi
    have hlt : slot < globalsSize := hi.operand_lt Nat.one_pos
    obtain ⟨fs, hfs, htracks⟩ := hσ.inStep.tracks.assign hsy hslot hlt hvc
    have habreast := hσ.inStep.abreast
    exact .assign hfs (.setGlobal hi (hσ.inStep.tracks.size ▸ hlt))
      ⟨_, st, rfl, htracks, ⟨habreast.free.running, habreast.free.unlimited⟩, habreast.store⟩
  | index m left key =>
    obtain ⟨hty, hcl, hck⟩ := hc
    simp only [Expr.fitted, Bool.and_eq_true] at hf
    simp only [Expr.anyFree, Bool.and_eq_true] at hany
    rw [targetChunk, Chunk.seq_assoc] at hload hends ⊢
    rw [Chunk.add_size_seq, Chunk.add_size_seq] at hends ⊢
    obtain ⟨hleft, hrest⟩ := hload.seq (closed_exprChunk sy left).regular
    obtain ⟨hkey, hi⟩ := hrest.seq (closed_exprChunk sy key).regular
    refine (Expr.computes_eval hinvoke left hcl hf.1 hany.1.2 hcode.1 hleft).bind hσ.reads
      fun Θ₁ l cs₁ σ₁ st₁ _ hframes₁ hσ₁ hl => (Expr.computes_eval hinvoke key hck hf.2 hany.2 hcode.2 hkey).bind
      hσ₁ fun Θ₂ i cs₂ σ₂ st₂ hle hframes₂ hσ₂ hi' => ?_
    obtain ⟨hl, d, rfl, hld⟩ := hl
    obtain ⟨hi', e, rfl, hie⟩ := hi'
    have hl := hl.hasType.mono hle
    have hframes := hframes₂.trans hframes₁
    obtain ⟨hkind, hkey, -⟩ | ⟨hkind, hkey, -⟩ | ⟨hkind, -, -⟩ := hty
    · obtain ⟨ref, t, rfl⟩ := hl.array_inv hkind
      obtain ⟨y, rfl⟩ := hi'.hasType.num_inv (Ty.kind_eq_of_same hkey)
      cases hld
      cases hie
      exact .located (hends hframes (matches_setElem hvc hσ₂.abreast hi.instr))
    · obtain ⟨ref, t, rfl⟩ := hl.map_inv hkind
      obtain ⟨u, rfl⟩ := hi'.hasType.str_inv (Ty.kind_eq_of_same hkey)
      cases hld
      cases hie
      exact hends hframes (matches_setField hvc hσ₂.abreast hi.instr)
    · obtain ⟨u, rfl⟩ := hl.str_inv hkind
      exact absurd hl.same (Bool.eq_false_iff.1 ht)
  | dot m left key =>
    obtain ⟨hkind, -, hcl⟩ := hc
    simp only [Expr.anyFree, Bool.and_eq_true] at hany
    rw [targetChunk, Chunk.seq_assoc] at hload hends ⊢
    rw [Chunk.add_size_seq, Chunk.add_size_seq] at hends ⊢
    obtain ⟨hleft, hrest⟩ := hload.seq (closed_exprChunk sy left).regular
    obtain ⟨hkey, hi⟩ := hrest.seq (Chunk.closed_const _).regular
    refine (Expr.computes_eval hinvoke left hcl hf hany.2 hcode hleft).bind hσ.reads
      fun Θ₁ l cs₁ σ₁ st₁ _ hframes₁ hσ₁ hl => ?_
    obtain ⟨hl, d, rfl, hld⟩ := hl
    obtain ⟨ref, t, rfl⟩ := hl.hasType.map_inv hkind
    cases hld
    obtain ⟨hconst, hk⟩ := hkey.const
    exact hends hframes₁ (.lead (.constant hconst hk) (matches_setField hvc hσ₁.abreast hi.instr))
  | _ => exact ht.elim

/-- An assignment computes the value before what the target needs. -/
theorem Runs.assign {invoke : Invoke} (hinvoke : SafeInvoke F G invoke) {k : Nat} {target value : Expr}
    (hc : target.Checked F (varTy? G L)) (ht : target.IsTarget) (hf : target.fitted F) (hany : target.anyFree)
    (hcode : target.Codable sy) (hsy : sy.FromEdits)
    (hvalue : ∀ g, Computes a G L sy g p q (value.eval invoke) fun Θ v cs => ValueOf Θ v value ∧ Image v cs)
    (hload : (targetChunk sy target).Loaded a k q x) :
    Runs a G L sy B sy it p (q + (targetChunk sy target).size) x (do
      let v ← value.eval invoke
      target.assign invoke v
      return .next) := by
  intro Θ σ g st stack hit hσ
  refine (hvalue g).bind hσ.reads fun Θ' v cs σ' st' _ hframes hσ' hv => ?_
  obtain ⟨-, c, rfl, hvc⟩ := hv
  refine (matches_assign hinvoke hc ht hf hany hcode hsy hload hvc (hσ.of_reads hframes hσ')).bind
    fun _ σ'' s hs => ?_
  obtain ⟨g', st'', rfl, hstep⟩ := hs
  exact .pure ⟨g', st'', rfl, hstep⟩

end

end TinyScript.Bytecode
