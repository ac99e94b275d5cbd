import TinyScript.Proofs.Eval.Stopping
import TinyScript.Proofs.Simulation.Instructions
import TinyScript.Proofs.Simulation.Mirrors
import TinyScript.Proofs.Typing.Safety

/-!
# Evaluations and code

`Matches a m σ s Q` says that the machine with the code `a` does from configuration `s` on what the
evaluation `m` does from `σ` on: it gets to a configuration that `Q` relates to the result and to the new
state, or both meet the same panic. There is one rule for each way to put evaluations together. What is
known about the types of a safe evaluation comes from its safety (`Matches.typed`).
-/

namespace TinyScript.Bytecode

/-- The code does from configuration `s` on what the evaluation does from `σ` on. -/
def Matches {α : Type} (a : Assembly) (m : Eval α) (σ : Machine) (s : Conf) (Q : α → Machine → Conf → Prop) :
    Prop :=
  match m.run.run σ with
  | (.ok x, σ') => ∃ s', Leads a s (.ok s') ∧ Q x σ' s'
  | (.error (.failed f), _) => ∃ p, f.cause = .panic p ∧ Leads a s (.error p)
  | (.error .outOfFuel, _) => True

namespace Matches
variable {α β : Type} {a : Assembly} {m : Eval α} {f : α → Eval β} {σ : Machine} {s s' : Conf}
  {Q Q' : α → Machine → Conf → Prop} {R : β → Machine → Conf → Prop}

theorem pure {x : α} (h : Q x σ s) : Matches a (Pure.pure x) σ s Q :=
  ⟨s, .refl s, h⟩

/-- First the machine goes on by itself. -/
theorem lead (hlead : Leads a s (.ok s')) (h : Matches a m σ s' Q) : Matches a m σ s Q := by
  unfold Matches at h ⊢
  split at h
  · obtain ⟨s'', hs, hQ⟩ := h
    exact ⟨s'', hlead.trans hs, hQ⟩
  · obtain ⟨p, hp, hs⟩ := h
    exact ⟨p, hp, hlead.trans hs⟩
  · trivial

theorem bind (hm : Matches a m σ s Q) (hf : ∀ x σ' s', Q x σ' s' → Matches a (f x) σ' s' R) :
    Matches a (m >>= f) σ s R := by
  unfold Matches at hm
  rw [Matches, Eval.run_bind]
  split at hm
  · next x σ' hr =>
    obtain ⟨s', hs, hQ⟩ := hm
    rw [hr]
    exact lead hs (hf x σ' s' hQ)
  · next hr =>
    rw [hr]
    exact hm
  · next hr =>
    rw [hr]
    trivial

theorem mono (h : Matches a m σ s Q) (hQ : ∀ x σ' s', Q x σ' s' → Q' x σ' s') : Matches a m σ s Q' := by
  unfold Matches at h ⊢
  split at h
  · obtain ⟨s', hs, h⟩ := h
    exact ⟨s', hs, hQ _ _ _ h⟩
  · exact h
  · trivial

/-- At the end the machine goes on by itself. -/
theorem follow (h : Matches a m σ s Q)
    (hlead : ∀ x σ' s', Q x σ' s' → ∃ s'', Leads a s' (.ok s'') ∧ Q' x σ' s'') : Matches a m σ s Q' := by
  unfold Matches at h ⊢
  split at h
  · obtain ⟨s', hs, h⟩ := h
    obtain ⟨s'', hs', h'⟩ := hlead _ _ _ h
    exact ⟨s'', hs.trans hs', h'⟩
  · exact h
  · trivial

theorem located {token : Token} (h : Matches a m σ s Q) : Matches a (Eval.located token m) σ s Q := by
  unfold Matches at h
  rw [Matches, Eval.run_located]
  split at h
  · next hr =>
    rw [hr]
    exact h
  · next f σ' hr =>
    obtain ⟨p, hp, hs⟩ := h
    rw [hr]
    refine ⟨p, ?_, hs⟩
    unfold Failure.atToken
    split <;> exact hp
  · next hr =>
    rw [hr]
    trivial

theorem panic {p : Panic} (h : Leads a s (.error p)) : Matches a (Eval.fail (.panic p) : Eval α) σ s Q :=
  ⟨p, rfl, h⟩

/-- Both take over the result of an operation that can panic. -/
theorem orPanic {γ : Type} {r : Except Panic α} {t : Except Panic γ} {g : γ → Conf} {S : α → γ → Prop}
    (h : Agreeing S r t) (hlead : Leads a s (t.map g)) (hQ : ∀ x y, S x y → Q x σ (g y)) :
    Matches a (Eval.orPanic r) σ s Q := by
  cases h with
  | ok h => exact lead hlead (pure (hQ _ _ h))
  | panic p => exact panic hlead

theorem outOfFuel : Matches a (throw .outOfFuel : Eval α) σ s Q :=
  trivial

theorem store {f : Store Value → Eval β} (h : Matches a (f σ.world.store) σ s R) :
    Matches a (Eval.store >>= f) σ s R :=
  h

theorem modify {g : Machine → Machine} {f : Unit → Eval β} (h : Matches a (f ()) (g σ) s R) :
    Matches a (modify g >>= f) σ s R :=
  h

theorem lookup {name : String} {v : Value} (hv : σ.frames.get? name = some v)
    {Q : Value → Machine → Conf → Prop} (hlead : Leads a s (.ok s')) (h : Q v σ s') :
    Matches a (Eval.lookup name) σ s Q := by
  rw [Matches, Eval.run_lookup, hv]
  exact ⟨s', hlead, h⟩

theorem assign {name : String} {v : Value} {fs : Frames} (hfs : σ.frames.assign? name v = some fs)
    {Q : Unit → Machine → Conf → Prop} (hlead : Leads a s (.ok s')) (h : Q () { σ with frames := fs } s') :
    Matches a (Eval.assign name v) σ s Q := by
  rw [Matches, Eval.run_assign, hfs]
  exact ⟨s', hlead, h⟩

theorem nested (h : Matches a m { σ with frames := σ.frames.nest } s fun x σ' s' =>
    Q x { σ' with frames := σ'.frames.unnest } s') : Matches a (Eval.nested m) σ s Q := by
  unfold Matches at h
  rw [Matches, Eval.run_nested]
  dsimp only
  split at h
  · next hr =>
    rw [hr]
    exact h
  · next hr =>
    rw [hr]
    exact h
  · next hr =>
    rw [hr]
    trivial

/-- A statement begins, which the host does not keep it from. -/
theorem statement {token : Token} {m : Eval Flow} {Q : Flow → Machine → Conf → Prop} (hσ : σ.Free)
    (h : ∀ w : World, w.store = σ.world.store → Machine.Free { σ with world := w } →
      Matches a m { σ with world := w } s Q) : Matches a (Eval.statement token m) σ s Q := by
  have htick : Matches a Eval.tick σ s fun _ σ' s' =>
      σ' = { σ with world := Eval.ticked σ.world } ∧ s' = s := by
    rw [Matches, Eval.run_tick, hσ.running]
    exact ⟨s, .refl s, rfl, rfl⟩
  refine htick.bind fun _ σ' s' hσ' => ?_
  obtain ⟨rfl, rfl⟩ := hσ'
  refine (h (Eval.ticked σ.world) rfl ⟨?_, hσ.unlimited⟩).located
  show (σ.world.stopAfter == some (σ.world.ticks + 1)) = false
  rw [hσ.unlimited]
  rfl

/-- What the types of a safe evaluation say holds of its result. -/
theorem typed {Θ : StoreTy} {G : String → Option Ty} {L : List Scoping} {P : List Scoping → Prop}
    {T : StoreTy → α → Prop} (hm : SafeIn Θ G L P m T) (hσ : MachineTyped Θ G L σ) (h : Matches a m σ s Q) :
    Matches a m σ s fun x σ' s' => Q x σ' s' ∧
      ∃ Θ' K, Θ ≤ Θ' ∧ P K ∧ MachineTyped Θ' G K σ' ∧ T Θ' x := by
  have hsafe := hm σ hσ
  unfold Matches at h ⊢
  split at h
  · next hr =>
    obtain ⟨s', hs, hQ⟩ := h
    rw [hr] at hsafe
    exact ⟨s', hs, hQ, hsafe⟩
  · exact h
  · trivial

end Matches

end TinyScript.Bytecode
