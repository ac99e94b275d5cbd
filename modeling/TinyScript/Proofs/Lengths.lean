import TinyScript.Proofs.Bytecode.Loops
import TinyScript.Proofs.Eval.Lengths

/-!
# Arrays never change their length

The evaluator and the stack machine agree on this: an array has as many elements as it was made with, and a
loop over it does one round for each of them.
-/

namespace TinyScript

open Bytecode Eval

/-- The length of an array never changes, whatever sessions, statements and expressions do, and whatever
code the stack machine runs. A `for` loop over an array does one round for each element that the array has
when the loop starts, whatever its rounds change: in the evaluator unless a round leaves the loop or the
bound on rounds is met, and in compiled code unless a round leaves the loop or the stack is full. -/
theorem lengths_never_change :
    (∀ s t : Session, s.Leads t → s.world.store.SameLengths t.world.store) ∧
    (∀ (funcs : List Function) (depth fuel : Nat) (σ : Machine),
      (∀ s : Stmt, σ.world.store.SameLengths
        ((s.run (invoke funcs depth) fuel).run.run σ).2.world.store) ∧
      ∀ e : Expr, σ.world.store.SameLengths ((e.eval (invoke funcs depth)).run.run σ).2.world.store) ∧
    (∀ (vm : Vm) (fuel : Nat), vm.store.SameLengths (vm.run fuel).2.store) ∧
    (∀ (funcs : List Function) (depth fuel : Nat) (token : Token) (comment : Option String)
      (var : Option Var) (e : Expr) (body : Block) (σ σ₁ : Machine) (v : Value) (ref : Nat) (ty : Ty),
      σ.world.stopped = false →
      (e.eval (invoke funcs depth)).run.run ⟨ticked σ.world, σ.frames.nest⟩ = (.ok v, σ₁) →
      v.unwrap = .array ref ty →
      let n := (σ₁.world.store.array ref).size
      let round := body.round (invoke funcs depth) fuel var
      let r := ((Stmt.each token comment var (.over e) body).run (invoke funcs depth) fuel).run.run σ
      ∃ k τ, Laps round ref σ₁ k τ ∧ k ≤ n ∧
        (k = n ∧ r = (.ok .next, { τ with frames := τ.frames.unnest }) ∨
          (∃ u, (τ.world.store.array ref)[k]? = some u ∧ ((round u).run.run τ).1 ≠ .ok .next) ∨
          k = fuel ∧ r = (.error .outOfFuel, { τ with frames := τ.frames.unnest }))) ∧
    ∀ (p : Program) (a : Assembly) (fuel ref k : Nat) (vm τ : Vm), ({} : Assembly).compile p = .ok a →
      (Vm.load a).run fuel = (none, vm) → vm.fetch? = some Opcode.iterRange.toByte →
      vm.stack[vm.sp - 1]? = some (.array ref) → vm.Laps k τ →
      let n := (vm.store.array ref).size
      let next := τ.step Opcode.iterRange.toByte
      k ≤ n ∧
        (k < n → (∃ υ, next = (.error .stackOverflow, υ)) ∨
          ∃ υ, next = (.ok (), υ) ∧ υ.ip = vm.ip + 5) ∧
        (k = n → ∃ υ, next = (.ok (), υ) ∧ υ.ip = vm.code.word (vm.ip + 3) ∧ υ.sp = vm.sp - 1) := by
  have hkeeps := KeepsLengths.stmtCompositional
  refine ⟨fun s t h => h.sameLengths, fun funcs depth fuel σ => ⟨fun s => ?_, fun e => ?_⟩,
    Vm.sameLengths_run, ?_, ?_⟩
  · exact hkeeps.run fuel (hkeeps.invoke funcs depth) s σ
  · exact hkeeps.eval (hkeeps.invoke funcs depth) e σ
  · intro funcs depth fuel token comment var e body σ σ₁ v ref ty
    exact Stmt.each_laps funcs depth fuel token comment var e body
  · intro p a fuel ref k vm τ hc hrun hb htop h
    exact Vm.laps_spec hc hrun hb htop h

/-- The array of two texts. -/
def letters : Expr :=
  .array default [] [.str default "a", .str default "b"]

/-- A loop over two texts that does nothing. -/
def letterLoop : Program where
  stmts := [.each default none none (.over letters) (.mk default none [])]
  funcs := []
  handlers := []

theorem letterLoop_lengths :
    (∃ σ₁ τ, (σ₁.world.store.array 0).size = 2 ∧
      Laps (Block.round (invoke [] 0) 5 none (.mk default none [])) 0 σ₁ 2 τ ∧
      ((Stmt.each default none none (.over letters) (.mk default none [])).run (invoke [] 0) 5).run.run {} =
        (.ok .next, { τ with frames := τ.frames.unnest })) ∧
    ∃ a vm ref, ({} : Assembly).compile letterLoop = .ok a ∧ (Vm.load a).run 3 = (none, vm) ∧
      vm.fetch? = some Opcode.iterRange.toByte ∧ vm.stack[vm.sp - 1]? = some (.array ref) ∧
      ∀ k τ, vm.Laps k τ → k ≤ (vm.store.array ref).size := by
  obtain ⟨-, -, -, heval, hcode⟩ := lengths_never_change
  refine ⟨?_, ?_⟩
  · obtain ⟨σ₁, ty, hsize, he⟩ : ∃ σ₁ ty, (σ₁.world.store.array 0).size = 2 ∧
        (letters.eval (invoke [] 0)).run.run ⟨ticked ({} : Machine).world, ({} : Machine).frames.nest⟩ =
          (.ok (.array 0 ty), σ₁) := ⟨_, _, rfl, rfl⟩
    obtain ⟨k, τ, hlaps, hle, hend⟩ := heval [] 0 5 default none none letters (.mk default none []) {} σ₁ _ 0 ty
      rfl he rfl
    rcases hend with ⟨rfl, hr⟩ | ⟨u, -, hleft⟩ | ⟨rfl, -⟩
    · exact ⟨σ₁, τ, hsize, hsize ▸ hlaps, hr⟩
    · exact absurd rfl hleft
    · exact absurd (hsize ▸ hle) (by decide)
  · have hok : (({} : Assembly).compile letterLoop).toOption.isSome := by decide +kernel
    have hrun : ((({} : Assembly).compile letterLoop).toOption.all fun a =>
      ((Vm.load a).run 3).1.isNone && ((Vm.load a).run 3).2.fetch? == some Opcode.iterRange.toByte &&
        (((Vm.load a).run 3).2.stack[((Vm.load a).run 3).2.sp - 1]?.map Cell.typeName) == some "array") := by
      decide +kernel
    cases hc : ({} : Assembly).compile letterLoop with
    | error e => rw [hc] at hok; cases hok
    | ok a =>
      rw [hc] at hrun
      rcases hr : (Vm.load a).run 3 with ⟨r, vm⟩
      simp only [Except.toOption, Option.all_some, hr, Bool.and_eq_true, Option.isNone_iff_eq_none,
        beq_iff_eq] at hrun
      obtain ⟨⟨rfl, hb⟩, htop⟩ := hrun
      obtain ⟨c, hc', hname⟩ := Option.map_eq_some_iff.1 htop
      obtain ⟨ref, rfl⟩ : ∃ ref, c = .array ref := by
        cases c with
        | array ref => exact ⟨ref, rfl⟩
        | _ => simp [Cell.typeName] at hname
      exact ⟨a, vm, ref, rfl, hr, hb, hc', fun k τ h => (hcode _ _ _ _ _ _ _ hc hr hb hc' h).1⟩

end TinyScript
