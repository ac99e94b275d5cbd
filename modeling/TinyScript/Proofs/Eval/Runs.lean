import TinyScript.Eval.Program

/-!
# Runs of evaluations

How the run of an evaluation from a machine is put together from the runs of its parts.
-/

namespace TinyScript

namespace Eval

variable {α β : Type}

theorem run_bind (m : Eval α) (f : α → Eval β) (σ : Machine) :
    (m >>= f).run.run σ = match m.run.run σ with
      | (.ok a, σ') => (f a).run.run σ'
      | (.error e, σ') => (.error e, σ') := by
  show (ExceptT.run m >>= ExceptT.bindCont f : StateM Machine _) σ = _
  simp only [bind, StateT.bind, ExceptT.bindCont]
  rcases hm : m.run.run σ with ⟨_ | _, σ'⟩ <;>
    simp only [StateT.run] at hm <;> rw [hm] <;> rfl

theorem run_located (token : Token) (m : Eval α) (σ : Machine) :
    (located token m).run.run σ = match m.run.run σ with
      | (.error (.failed f), σ') => (.error (.failed (f.atToken token)), σ')
      | r => r := by
  show (ExceptT.run m >>= _ : StateM Machine _) σ = _
  simp only [bind, StateT.bind]
  rcases hm : m.run.run σ with ⟨(_ | _) | _, σ'⟩ <;>
    simp only [StateT.run] at hm <;> rw [hm] <;> rfl

theorem run_lookup (name : String) (σ : Machine) :
    (lookup name).run.run σ = match σ.frames.get? name with
      | some v => (.ok v, σ)
      | none => (.error (.failed ⟨.internal (.unboundVariable name), none⟩), σ) := by
  show (match σ.frames.get? name with
    | some v => Pure.pure v
    | none => internal (.unboundVariable name) : Eval Value).run.run σ = _
  split <;> rfl

theorem run_assign (name : String) (v : Value) (σ : Machine) :
    (assign name v).run.run σ = match σ.frames.assign? name v with
      | some frames => (.ok (), { σ with frames })
      | none => (.error (.failed ⟨.internal (.unboundVariable name), none⟩), σ) := by
  show (match σ.frames.assign? name v with
    | some frames => modifyFrames fun _ => frames
    | none => internal (.unboundVariable name) : Eval Unit).run.run σ = _
  split <;> rfl

/-- The world after one more statement was begun. -/
def ticked (w : World) : World :=
  { w with ticks := w.ticks + 1, stopped := w.stopAfter == some (w.ticks + 1) }

theorem run_tick (σ : Machine) :
    tick.run.run σ = if σ.world.stopped then (.error (.failed ⟨.stopped, none⟩), σ)
      else (.ok (), { σ with world := ticked σ.world }) := by
  show ((if σ.world.stopped then fail .stopped >>= _ else _ : Eval Unit)).run.run σ = _
  split <;> rfl

theorem run_nested (m : Eval α) (σ : Machine) :
    (nested m).run.run σ =
      let r := m.run.run { σ with frames := σ.frames.nest }
      (r.1, { r.2 with frames := r.2.frames.unnest }) := rfl

theorem run_inBody (m : Eval α) (σ : Machine) :
    (inBody m).run.run σ =
      let r := m.run.run { σ with frames := σ.frames.enterBody }
      (r.1, { r.2 with frames := r.2.frames.leaveBody σ.frames.locals }) := rfl

end Eval

/-! ### Ranges -/

/-- The number that is given, or `missing`. -/
def Expr.evalNumberOr (invoke : Invoke) (missing : Float) : Option Expr → Eval Float
  | some e => e.evalNumber invoke
  | none => pure missing

theorem Range.run_step {invoke : Invoke} {fuel : Nat} (start : Option Expr) (stop : Expr)
    (stride : Option Expr) (round : Value → Eval Flow) :
    (Range.step start stop stride).run invoke fuel round = (do
      let x ← Expr.evalNumberOr invoke 0.0 start
      let last ← stop.evalNumber invoke
      let step ← Expr.evalNumberOr invoke 1.0 stride
      if step == 0.0 then Eval.located stop.token (Eval.fail (.panic .zeroStep))
      else Eval.countLoop round last step fuel x) := by
  cases start <;> cases stride <;> rfl

end TinyScript
