import TinyScript.Proofs.Bytecode.StackDiscipline
import TinyScript.Proofs.Formatting
import TinyScript.Proofs.Simulation.Statements
import TinyScript.Proofs.Typing.Events

/-!
# Programs run alike on both backends

What an interpreter does with a program in which `any` does not occur, the stack machine does with its code
(`Interpreter.agrees_run`): the same variables have the same text and the same kinds of values in the end, or
both end with the same panic.
-/

namespace TinyScript.Bytecode
open Assemble

/-- A run of the evaluator and one of the machine have the same outcome, unless the stack was full. Where
they end well, the variables that the program declares have the same texts, and the same kinds of values at
every level. -/
inductive Agrees (p : Program) (a : Assembly) :
    Except Interrupt Unit × Interpreter × World → Option (Except VmError Unit) × Vm → Prop where
  | overflow {r : Except Interrupt Unit × Interpreter × World} {vm : Vm} :
    Agrees p a r (some (.error .stackOverflow), vm)
  | ok {i : Interpreter} {w : World} {vm : Vm}
    (h : ∀ x ∈ p.stmts.filterMap Stmt.declared?, ∃ slot v c text, a.symbols.resolve? x.name = some slot ∧
      i.global? x.name = some v ∧ vm.globals[slot]? = some c ∧ v.display w.store = some text ∧
      c.display vm.store = some text ∧ SameKinds w.store vm.store v c) :
    Agrees p a (.ok (), i, w) (some (.ok ()), vm)
  | panic {f : Failure} {i : Interpreter} {w : World} {vm : Vm} {q : Panic} (h : f.cause = .panic q) :
    Agrees p a (.error (.failed f), i, w) (some (.error (.panic q)), vm)

/-! ### The variables of a program -/

/-- What the program declares has a slot in the end. -/
theorem resolve?_stmtsSymbols {sy : Symbols} {ss : List Stmt} {x : Var}
    (h : x ∈ ss.filterMap Stmt.declared? ∨ (sy.resolve? x.name).isSome) :
    ((stmtsSymbols sy ss).resolve? x.name).isSome := by
  induction ss generalizing sy with
  | nil =>
    rw [stmtsSymbols]
    exact h.resolve_left List.not_mem_nil
  | cons s ss ih =>
    rw [stmtsSymbols]
    refine ih ?_
    cases hs : s.declared? with
    | none =>
      rw [List.filterMap_cons_none hs] at h
      exact h.imp_right fun h => by rwa [(stmtSymbols_sameNames sy s hs).resolve?_eq]
    | some y =>
      rw [List.filterMap_cons_some hs, List.mem_cons, or_assoc] at h
      rw [stmtSymbols_of_declared hs, Symbols.resolve?_define]
      rcases h with rfl | h | h
      · exact .inr (by rw [if_pos rfl]; rfl)
      · exact .inl h
      · refine .inr ?_
        split
        · rfl
        · exact h

theorem global_of_declared {F : Sigs} {G : Vars} {result : Option Ty} {inLoop : Bool} {ss : List Stmt} {x : Var}
    (hc : Stmt.AllChecked F G result [] inLoop ss) (hany : Stmt.allAnyFree ss)
    (hx : x ∈ ss.filterMap Stmt.declared?) : G x.name = some x.ty ∧ x.ty.anyFree := by
  induction ss with
  | nil => cases hx
  | cons s ss ih =>
    simp only [Stmt.allAnyFree, Bool.and_eq_true] at hany
    obtain ⟨hcs, hcss⟩ := hc
    have hscopings : s.scopings [] = [] := by cases s <;> rfl
    rw [hscopings] at hcss
    cases hs : s.declared? with
    | none =>
      rw [List.filterMap_cons_none hs] at hx
      exact ih hcss hany.2 hx
    | some y =>
      rw [List.filterMap_cons_some hs, List.mem_cons] at hx
      rcases hx with rfl | hx
      · cases s <;> cases hs <;>
          (simp only [Stmt.anyFree, Bool.and_eq_true] at hany; exact ⟨hcs.2 rfl, hany.1.1⟩)
      · exact ih hcss hany.2 hx

/-- The variables that a program declares, when it has been run on both backends. -/
theorem globals_agree {F : Sigs} {G : Vars} {ss : List Stmt} {Θ : StoreTy} {σ : Machine} {g : Array Cell}
    {st : Store Cell} {x : Var} (hc : Stmt.AllChecked F G none [] false ss) (hany : Stmt.allAnyFree ss)
    (hσ : Mirrored Θ G [] (stmtsSymbols {} ss) σ g st) (hx : x ∈ ss.filterMap Stmt.declared?) :
    ∃ slot v c text, (stmtsSymbols {} ss).resolve? x.name = some slot ∧ σ.frames.get? x.name = some v ∧
      g[slot]? = some c ∧ v.display σ.world.store = some text ∧ c.display st = some text ∧
      SameKinds σ.world.store st v c := by
  obtain ⟨hG, hτ⟩ := global_of_declared hc hany hx
  have hdeclared : ((stmtsSymbols {} ss).resolve? x.name).isSome := resolve?_stmtsSymbols (.inl hx)
  obtain ⟨slot, hslot⟩ := Option.isSome_iff_exists.1 hdeclared
  obtain ⟨v, c, hv, hcell, hvc⟩ := hσ.reads.sees x.name slot hslot
  have hlocals : σ.frames.locals = [] := List.forall₂_nil_right_iff.1 hσ.typed.frames.locals
  have hglobal : σ.frames.globals.get? x.name = some v := by
    rw [Frames.get?, hlocals] at hv
    exact hv
  obtain ⟨τ, hG', htype⟩ := hσ.typed.frames.globals x.name v hglobal
  cases hG.symm.trans hG'
  have hstore := hσ.inStep.abreast.store
  obtain ⟨text, htext⟩ := Option.isSome_iff_exists.1
    (Value.display_isSome (htype.acyclic hσ.typed.store hτ))
  exact ⟨slot, v, c, text, hslot, hv, hcell, htext, (hvc.display_eq hstore).symm.trans htext,
    hvc.sameKinds hstore (htype.levels hσ.typed.store hτ)⟩

/-! ### Runs -/

theorem Vm.load_in (a : Assembly) :
    (Vm.load a).In a ⟨0, [], Array.replicate globalsSize .none, {}⟩ where
  code := rfl
  constants := rfl
  ip := rfl
  live := rfl
  sp_le := Nat.zero_le _
  globals := rfl
  store := rfl

/-- Nothing is declared before the first statement. -/
theorem mirrored_fresh {G : Vars} {w : World} (hG : NotesErrors G) (hw : w.store = Interpreter.fresh.2)
    (hfree : Machine.Free ⟨w, Interpreter.fresh.1.frames⟩) :
    Mirrored {} G [] {} ⟨w, Interpreter.fresh.1.frames⟩ (Array.replicate globalsSize .none) {} where
  typed := Interpreter.machineTyped_fresh hG hw
  inStep :=
    { tracks :=
        { size := Array.size_replicate
          bound := .cons (fun _ _ h => nomatch Std.HashMap.getElem?_empty.symm.trans h) .nil
          hides := .nil }
      abreast :=
        { free := hfree
          store := by
            show Reflects w.store {}
            rw [hw]
            exact ⟨rfl, rfl, fun _ => .nil, fun _ => .empty⟩ } }

/-- A program that is read without problems and compiled, in which `any` does not occur and whose values
fit their places, runs alike on a fresh interpreter that is never stopped and on the machine, if its run
comes to an end. -/
theorem agrees_run {source : String} {p : Program} {a : Assembly} {w : World} {fuel : Nat}
    (hp : Program.parse source .standard = .ok p) (ha : ({} : Assembly).compile p = .ok a) (hany : p.anyFree)
    (hf : p.fitted) (hw : w.store = Interpreter.fresh.2) (hstopped : w.stopped = false)
    (hstopAfter : w.stopAfter = none)
    (hends : (Interpreter.fresh.1.run w source fuel).1 ≠ .error .outOfFuel) :
    ∃ n, Agrees p a (Interpreter.fresh.1.run w source fuel) ((Vm.load a).run n) := by
  obtain ⟨G, hc⟩ := Program.checked_of_parse hp
  have hinvoke := Program.safe_invoke hc hf fuel
  have hholds := compile_holds ha
  have hf' := hf
  simp only [Program.fitted, Bool.and_eq_true] at hf'
  have hstart := mirrored_fresh hc.errors hw ⟨hstopped, hstopAfter⟩
  have hruns : Runs a G [] {} _ _ _ _ _ _ (Stmt.runAll (invoke p.funcs fuel) fuel p.stmts) :=
    Stmt.runs_runAll hinvoke p.stmts hc.stmts hf'.1.1 hany (compile_codable ha) .empty hholds.loaded
  have hm := (hruns {} _ _ _ [] (Nat.zero_le _) hstart).typed
    (Stmt.safe_runAll hinvoke p.stmts hc.stmts hf'.1.1) hstart.typed
  have hrun : Interpreter.fresh.1.run w source fuel =
      ({ Interpreter.fresh.1 with funcs := p.funcs, handlers := p.handlers } : Interpreter).eval w
        (p.run fuel) := by rw [Interpreter.run, hp]
  rw [hrun] at hends ⊢
  unfold Interpreter.eval Program.run at hends ⊢
  rw [Eval.run_bind] at hends ⊢
  unfold Matches at hm
  rcases hr : (Stmt.runAll (invoke p.funcs fuel) fuel p.stmts).run.run ⟨w, Interpreter.fresh.1.frames⟩ with
    ⟨(f | _) | flow, σ⟩ <;> simp only [hr] at hm hends ⊢
  · obtain ⟨q, hq, hlead⟩ := hm
    obtain ⟨n, ⟨vm, hfull⟩ | ⟨vm, hpanic⟩⟩ := hlead _ (Vm.load_in a)
    · exact ⟨n, hfull ▸ .overflow⟩
    · exact ⟨n, hpanic ▸ .panic hq⟩
  · exact absurd rfl hends
  · obtain ⟨s, hlead, hlands, Θ, K, -, hK, htyped, hflow⟩ := hm
    obtain rfl : K = [] := List.length_eq_zero_iff.1 hK.length
    cases flow with
    | ret => exact hlands.elim
    | brk => cases hflow
    | next =>
      obtain ⟨g, st, rfl, hstep⟩ := hlands
      obtain ⟨n, ⟨vm, hfull⟩ | ⟨vm, hvm, hlast⟩⟩ := hlead _ (Vm.load_in a)
      · exact ⟨n, hfull ▸ .overflow⟩
      · have hend : vm.fetch? = none := by
          rw [Vm.fetch?, hvm.code, hvm.ip, Array.getElem?_eq_none_iff, hholds.size_code, Nat.zero_add]
          exact Nat.le_refl _
        have hdone : vm.run 1 = (some (.ok ()), vm) := by rw [Vm.run, hend]
        refine ⟨n + 1, ((hlast 1).trans hdone) ▸ .ok fun x hx => ?_⟩
        rw [hholds.symbols, hvm.globals, hvm.store]
        exact globals_agree hc.stmts hany ⟨htyped, hstep⟩ hx

/-- A program that joins the elements of an array to one text. -/
def joinSource : String :=
  "xs := [\"a\" \"b\"]\ns := \"\"\nfor x := range xs\n    s = s + x\nend\n"

/-- Whether these are the statements of a program that joins the elements of an array to one text. -/
def isJoin : List Stmt → Bool
  | [.inferredDecl _ _ xs (.array _ _ [.str .., .str ..]), .inferredDecl _ _ s (.str ..),
      .each _ _ (some x) (.over (.var _ all)) (.mk _ _ [.assign _ _ (.var _ target)
        (.binary _ .add _ (.var m left) (.var _ right))])] =>
    xs.name = "xs" ∧ s.name = "s" ∧ x.name = "x" ∧ all = "xs" ∧ target = "s" ∧ left = "s" ∧ right = "x" ∧
      m.ty.kind = .string
  | _ => false

theorem compileStmts_of_isJoin {ss : List Stmt} (h : isJoin ss) :
    ∃ a, (compileStmts ss).run {} = .ok ((), a) := by
  unfold isJoin at h
  split at h
  · simp only [decide_eq_true_eq] at h
    obtain ⟨hxs, hs, hx, rfl, rfl, rfl, rfl, hm⟩ := h
    -- the lemmas by name: with the others simp walks through the states of the compiler again and again
    simp only [compileStmts, compileStmt, compileDecl, compileExpr, compileList, compileAssign, compileBlock,
      opcodeOf?, compileHead, compileRange, loopBody, nested, patchAll, StateT.run_bind, StateT.run_modify,
      StateT.run_modifyGet, StateT.run_pure, pure_bind, bind_assoc, run_emit, run_put, run_emitConstant,
      run_patch, run_define, run_resolve, le_maxWord, placeholder, size_append_encode, Opcode.size,
      Opcode.arity, Symbols.define, Symbols.resolve?, Symbols.nest, Symbols.unnest, Std.HashMap.getElem?_insert,
      Std.HashMap.getElem?_empty, beq_self_eq_true, String.reduceBEq, Bool.false_eq_true, ↓reduceIte,
      Option.none_or, Option.some_or, Option.elim_some, Option.isSome_some, List.findSome?_cons, List.findSome?_nil,
      List.mem_cons, List.not_mem_nil, List.tail_cons, List.length_cons, List.length_nil, List.size_toArray,
      Array.size_push, List.forM_eq_forM, List.forM_nil, false_imp_iff, implies_true, or_false, forall_eq,
      forall_eq_or_imp, and_self, Nat.zero_le, Nat.zero_add, Nat.reduceAdd, Nat.reduceMul, Nat.reduceLeDiff, Expr.ty,
      Expr.mark, hxs, hs, hx, hm]
    exact ⟨_, rfl⟩
  · cases h

theorem joinSource_agrees :
    ∃ p a, Program.parse joinSource .standard = .ok p ∧ ({} : Assembly).compile p = .ok a ∧ p.anyFree ∧ p.fitted ∧
      ∃ n, Agrees p a (Interpreter.fresh.1.run { store := Interpreter.fresh.2 } joinSource 20)
        ((Vm.load a).run n) := by
  have hparse : (Program.parse joinSource .standard).toOption.any fun p =>
      p.anyFree && p.fitted && isJoin p.stmts := by decide +kernel
  have hrun : (Interpreter.fresh.1.run { store := Interpreter.fresh.2 } joinSource 20).1.toOption.isSome := by
    decide +kernel
  cases hp : Program.parse joinSource .standard with
  | error problems => rw [hp] at hparse; cases hparse
  | ok p =>
    rw [hp] at hparse
    simp only [Except.toOption, Option.any_some, Bool.and_eq_true] at hparse
    obtain ⟨⟨hany, hfitted⟩, hjoin⟩ := hparse
    obtain ⟨a, hcompile⟩ := compileStmts_of_isJoin hjoin
    have ha : ({} : Assembly).compile p = .ok a := by rw [Assembly.compile, hcompile]; rfl
    exact ⟨p, a, rfl, ha, hany, hfitted,
      agrees_run hp ha hany hfitted rfl rfl rfl fun hends => by rw [hends] at hrun; cases hrun⟩

end TinyScript.Bytecode
