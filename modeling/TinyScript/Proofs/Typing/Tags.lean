import TinyScript.Proofs.Typing.Events
import TinyScript.Proofs.Typing.Parts

/-!
# Types of values at run time

An array or a map carries its type. `Interpreter.Evaluates` are the values of all expressions that are
evaluated while an interpreter runs a program and handles events. If the values of the program fit
their places, each of them carries the type of its expression (`evaluates_fits`), which is what
`typeof`, type assertions and comparisons of values of type `any` then go by.
-/

namespace TinyScript

theorem Ty.fits_of_same {t u : Ty} (h : t.same u) : t.fits u := by
  cases t <;> simp [fits, h]

namespace Interpreter

/-- The machine that handles an event with data, before the parameters have their values. -/
def handling (r : Except Interrupt Unit × Interpreter × World) (params : List Datum) : Machine :=
  { world := { r.2.2 with store := (Datum.toValues r.2.2.store params).2 },
    frames := r.2.1.frames.enterBody }

/-- Where an interpreter begins to run a part of a program: with its statements when it has run
nothing yet, and with the body of a handler when its event comes. -/
inductive Begins (source : String) (p : Program) : Point → Prop where
  | run {w : World} (fuel : Nat) (hw : w.store = fresh.2) :
    Begins source p ⟨fuel, .stmts p.stmts, ⟨w, fresh.1.frames⟩⟩
  | event {r : Except Interrupt Unit × Interpreter × World} {event : String} {params : List Datum}
    {h : Handler} {σ : Machine} (hr : Reached source r) (hparams : Datum.AreFor params event)
    (hstopped : r.2.2.stopped = false) (hh : r.2.1.handlers.find? (·.name == event) = some h)
    (hlen : h.params.length ≤ (Datum.toValues r.2.2.store params).1.length)
    (hbind : (h.bind (Datum.toValues r.2.2.store params).1).Returns (handling r params) () σ)
    (fuel : Nat) : Begins source p ⟨fuel, .stmts h.body.stmts, σ⟩

/-- While an interpreter runs the source and handles events, the expression `e` is evaluated to `v`. -/
def Evaluates (source : String) (e : Expr) (v : Value) : Prop :=
  ∃ p a, Program.parse source .standard = .ok p ∧ Begins source p a ∧ a.Evaluates p.funcs e v

theorem Begins.typed {source : String} {p : Program} {G : Vars} {a : Point} (hc : p.Checked G)
    (hf : p.fitted) (hp : Program.parse source .standard = .ok p) (h : Begins source p a) :
    a.Typed p.func? G := by
  have hf' := hf
  simp only [Program.fitted, Bool.and_eq_true, List.all_eq_true] at hf'
  cases h with
  | run fuel hw =>
    exact ⟨{}, [], machineTyped_fresh hc.errors hw, none, false, hc.stmts, hf'.1.1⟩
  | @event r event params h σ hr hparams hstopped hh hlen hbind fuel =>
    have hsound := hr.sound hc hf hp
    obtain ⟨Θ, hσ⟩ := hsound.machine
    obtain ⟨sig, -, hparams⟩ := hparams
    obtain ⟨-, hvs⟩ := toValues_of_isOf (Θ := Θ) hparams r.2.2.store
    have hhandling : MachineTyped Θ G [[]] (handling r params) :=
      (machineTyped_toValues hparams hσ).enterBody
    have hmem : h ∈ p.handlers := List.mem_of_find?_eq_some (hsound.handlers ▸ hh)
    obtain ⟨Θ', L', -, rfl, hσ', -⟩ := (Handler.safe_bind hlen hvs).returns hhandling hbind
    exact ⟨Θ', _, hσ', some .none, false, hc.handlers h hmem, hf'.2 h hmem⟩

/-- If the values of a program fit their places, every value of an expression that is evaluated
carries a type that the one of the expression fits. -/
theorem evaluates_fits {source : String} {p : Program} {e : Expr} {v : Value}
    (hp : Program.parse source .standard = .ok p) (hf : p.fitted) (h : Evaluates source e v) :
    e.ty.fits v.typeOf := by
  obtain ⟨G, hc⟩ := Program.checked_of_parse hp
  obtain ⟨p', a, hp', ha, hv⟩ := h
  cases hp.symm.trans hp'
  obtain ⟨Θ, hval⟩ := hv.hasType hc hf (ha.typed hc hf hp)
  exact Ty.fits_of_same hval.same

/-! ### The first expression -/

/-- The first expression of a program with its value. -/
def firstValue? (source : String) (fuel : Nat) : Option (Expr × Value) :=
  match Program.parse source .standard with
  | .error _ => none
  | .ok p =>
    match p.stmts.head?.bind (·.operands.head?) with
    | none => none
    | some e =>
      match (e.eval (invoke p.funcs fuel)).run.run
          ⟨Eval.ticked { store := fresh.2 }, fresh.1.frames⟩ with
      | (.ok v, _) => some (e, v)
      | _ => none

theorem evaluates_of_firstValue? {source : String} {fuel : Nat} {e : Expr} {v : Value}
    (h : firstValue? source fuel = some (e, v)) : Evaluates source e v := by
  unfold firstValue? at h
  cases hp : Program.parse source .standard with
  | error problems => simp [hp] at h
  | ok p =>
    simp only [hp] at h
    split at h
    · cases h
    · next e' he' =>
      obtain ⟨s, hs, he⟩ := Option.bind_eq_some_iff.1 he'
      obtain ⟨ss, hss⟩ := List.head?_eq_some_iff.1 hs
      obtain ⟨es, hes⟩ := List.head?_eq_some_iff.1 he
      split at h
      · next v' σ' hv =>
        cases h
        refine ⟨p, _, hp, .run (w := { store := fresh.2 }) fuel rfl, fuel, _, σ', ?_, hv⟩
        rw [hss]
        have htick : Eval.tick.Returns ⟨{ store := fresh.2 }, fresh.1.frames⟩ ()
            ⟨Eval.ticked { store := fresh.2 }, fresh.1.frames⟩ := Eval.run_tick _
        refine .head (.stmt .stmtHead) (.head (.stmt (.stmtOperands htick)) ?_)
        rw [hes]
        exact .single (.expr .head)
      · cases h

/-- The rows of the literal have the type of the second one, and the first one is empty. -/
def emptyRowSource : String :=
  "x := [[] [1]]\nprint (typeof x[0])\n"

theorem emptyRowSource_fits : ∃ p, Program.parse emptyRowSource .standard = .ok p ∧ p.fitted ∧
    ∃ e v, Evaluates emptyRowSource e v ∧ e.ty.fits v.typeOf := by
  have hparse : (match Program.parse emptyRowSource .standard with
      | .ok p => p.fitted
      | .error _ => false) = true := by decide +kernel
  have hfirst : (firstValue? emptyRowSource 5).isSome := by decide +kernel
  cases hp : Program.parse emptyRowSource .standard with
  | error problems => rw [hp] at hparse; cases hparse
  | ok p =>
    rw [hp] at hparse
    obtain ⟨⟨e, v⟩, hev⟩ := Option.isSome_iff_exists.1 hfirst
    have h := evaluates_of_firstValue? hev
    exact ⟨p, rfl, hparse, e, v, h, evaluates_fits hp hparse h⟩

/-- A slice stands beside a literal of another type, so that rows are arrays of anything. The slice
stays an array of texts, and carries that type. -/
def slicedRowSource : String :=
  "x := [[\"s\"][:] [1]][0]\nprint (typeof x)\n"

theorem slicedRowSource_not_fits : ∃ e v, Evaluates slicedRowSource e v ∧ e.ty.kind = .array ∧
    e.ty.fits v.typeOf = false := by
  have hfirst : (firstValue? slicedRowSource 5).any
      (fun (e, v) => e.ty.kind == .array && !e.ty.fits v.typeOf) := by decide +kernel
  cases hev : firstValue? slicedRowSource 5 with
  | none => rw [hev] at hfirst; cases hfirst
  | some ev =>
    obtain ⟨e, v⟩ := ev
    rw [hev] at hfirst
    simp only [Option.any_some, Bool.and_eq_true, beq_iff_eq, Bool.not_eq_true'] at hfirst
    exact ⟨e, v, evaluates_of_firstValue? hev, hfirst⟩

end Interpreter

end TinyScript
