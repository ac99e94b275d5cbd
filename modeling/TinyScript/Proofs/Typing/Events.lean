import TinyScript.Proofs.Parsing.Programs
import TinyScript.Proofs.Typing.Programs
import TinyScript.Session

/-!
# Runs and events

What an interpreter can get to (`Reached`): it runs a program, and then handles events that the host
declares, one after the other, while the host changes what is not storage. Each step takes an
interpreter that keeps to its types to one that does, and does not fail because of types.
-/

namespace TinyScript

/-- Data of a type that a host declares for the parameters of its events. -/
def Datum.IsOf : Datum → Ty → Prop
  | .num _, t => t.same .num
  | .str _, t => t.same .string
  | _, _ => False

/-- Data for the parameters of an event. -/
def Datum.AreFor (params : List Datum) (event : String) : Prop :=
  ∃ sig, Prelude.standard.event? event = some sig ∧
    List.Forall₂ Datum.IsOf params (sig.params.map (·.ty))

namespace Interpreter

/-- An interpreter with no program yet, and its storage. -/
def fresh : Interpreter × Store Value :=
  withGlobals Prelude.standard.globals {}

/-- Hands an event with data to its handler. -/
def handleData (i : Interpreter) (w : World) (event : String) (params : List Datum) (fuel : Nat) :
    Except Interrupt Unit × Interpreter × World :=
  let (vs, store) := Datum.toValues w.store params
  i.handle { w with store } event vs fuel

/-- What becomes of an interpreter that runs a source, and then handles events: the outcome of its
last step, the interpreter and its world. -/
inductive Reached (source : String) : Except Interrupt Unit × Interpreter × World → Prop where
  /-- It runs the source. -/
  | run {w : World} (fuel : Nat) (hw : w.store = fresh.2) :
    Reached source (fresh.1.run w source fuel)
  /-- It handles an event. -/
  | event {r : Except Interrupt Unit × Interpreter × World} {event : String} {params : List Datum}
    (h : Reached source r) (hparams : Datum.AreFor params event) (fuel : Nat) :
    Reached source (r.2.1.handleData r.2.2 event params fuel)
  /-- The host changes something but storage. -/
  | host {r : Except Interrupt Unit × Interpreter × World} {w : World}
    (h : Reached source r) (hw : w.store = r.2.2.store) : Reached source (r.1, r.2.1, w)

/-- The outcome of a step is not a failure because of types, and what is left keeps to its types. -/
structure Sound (G : Vars) (p : Program) (r : Except Interrupt Unit × Interpreter × World) :
    Prop where
  funcs : r.2.1.funcs = p.funcs
  handlers : r.2.1.handlers = p.handlers
  outcome : ∀ e, r.1 = .error e → e.isMistyped = false
  machine : ∃ Θ, MachineTyped Θ G [] ⟨r.2.2, r.2.1.frames⟩

section
variable {G : Vars} {p : Program} {Θ : StoreTy} {w : World} {i : Interpreter}

theorem Sound.of_eval {m : Eval Unit} (hfuncs : i.funcs = p.funcs) (hhandlers : i.handlers = p.handlers)
    (hσ : MachineTyped Θ G [] ⟨w, i.frames⟩) (hm : Safe Θ G [] m fun _ _ => True) :
    Sound G p (i.eval w m) := by
  have := hm _ hσ
  unfold eval
  rcases hr : m.run.run ⟨w, i.frames⟩ with ⟨e | a, σ'⟩ <;> rw [hr] at this
  · obtain ⟨he, Θ', K, -, hK, hσ'⟩ := this
    cases List.length_eq_zero_iff.1 hK.length
    exact ⟨hfuncs, hhandlers, fun _ h => by cases h; exact he, Θ', hσ'⟩
  · obtain ⟨Θ', K, -, rfl, hσ', -⟩ := this
    exact ⟨hfuncs, hhandlers, fun _ h => (by cases h), Θ', hσ'⟩

/-- Numbers and texts need no storage. -/
theorem toValues_of_isOf {params : List Datum} {ts : List Ty}
    (h : List.Forall₂ Datum.IsOf params ts) (s : Store Value) :
    (Datum.toValues s params).2 = s ∧ ∀ v ∈ (Datum.toValues s params).1, v.WellFormed Θ := by
  induction h with
  | nil => exact ⟨rfl, fun v hv => by cases hv⟩
  | @cons d t ds ts hd _ ih =>
    obtain ⟨hs, hvs⟩ := ih
    cases d with
    | num x | str x =>
      refine ⟨hs, fun v hv => ?_⟩
      rcases List.mem_cons.1 hv with rfl | hv
      · trivial
      · exact hvs v hv
    | bool | any | array | map | none => exact hd.elim

theorem machineTyped_toValues {params : List Datum} {ts : List Ty} {frames : Frames} {L : List Scoping}
    (h : List.Forall₂ Datum.IsOf params ts) (hσ : MachineTyped Θ G L ⟨w, frames⟩) :
    MachineTyped Θ G L ⟨{ w with store := (Datum.toValues w.store params).2 }, frames⟩ := by
  refine ⟨?_, hσ.frames⟩
  show StoreTyped Θ (Datum.toValues w.store params).2
  rw [(toValues_of_isOf (Θ := Θ) h w.store).1]
  exact hσ.store

theorem machineTyped_fresh (hG : NotesErrors G) (hw : w.store = fresh.2) :
    MachineTyped {} G [] ⟨w, fresh.1.frames⟩ := by
  refine ⟨?_, ?_, .nil⟩
  · show StoreTyped {} w.store
    rw [hw]
    exact .nil
  · have hempty : GlobalsTyped {} [] G := fun name v h => by cases h
    exact (hempty.insert hG.err (.bool rfl false)).insert hG.errmsg (.str rfl "")

variable (hc : p.Checked G) (hf : p.fitted)
include hc hf

theorem Sound.run {source : String} (hp : Program.parse source .standard = .ok p)
    (hw : w.store = fresh.2) (fuel : Nat) : Sound G p (fresh.1.run w source fuel) := by
  unfold Interpreter.run
  rw [hp]
  exact .of_eval rfl rfl (machineTyped_fresh hc.errors hw) (Program.safe_run hc hf fuel)

theorem Sound.handleData {r : Except Interrupt Unit × Interpreter × World} (h : Sound G p r)
    {event : String} {params : List Datum} (hparams : Datum.AreFor params event) (fuel : Nat) :
    Sound G p (r.2.1.handleData r.2.2 event params fuel) := by
  obtain ⟨Θ, hσ⟩ := h.machine
  obtain ⟨sig, -, hparams⟩ := hparams
  obtain ⟨-, hvs⟩ := toValues_of_isOf (Θ := Θ) hparams r.2.2.store
  refine .of_eval h.funcs h.handlers (machineTyped_toValues hparams hσ) ?_
  dsimp only
  rw [h.funcs, h.handlers]
  cases hstopped : r.2.2.stopped with
  | true =>
    exact SafeIn.fail_bind (c := .stopped) rfl
  | false =>
    cases hfind : p.handlers.find? (·.name == event) with
    | none => exact SafeIn.fail (c := .internal (.noHandler event)) rfl
    | some hd =>
      dsimp only
      split
      · exact SafeIn.fail_bind (c := .internal (.missingParameters ..)) rfl
      · next hlen =>
        exact Handler.safe_run hc hf (List.mem_of_find?_eq_some hfind) fuel (Nat.le_of_not_lt hlen) hvs

theorem Reached.sound {source : String} {r : Except Interrupt Unit × Interpreter × World}
    (hp : Program.parse source .standard = .ok p) (h : Reached source r) : Sound G p r := by
  induction h with
  | run fuel hw => exact .run hc hf hp hw fuel
  | event _ hparams fuel ih => exact ih.handleData hc hf hparams fuel
  | host _ hw ih =>
    obtain ⟨Θ, hσ⟩ := ih.machine
    exact ⟨ih.funcs, ih.handlers, ih.outcome, Θ, hw ▸ hσ.store, hσ.frames⟩

end

/-- If the values of a program fit their places, no value is of the wrong type when it runs and handles
events. -/
theorem reached_well_typed {source : String} {p : Program} {r : Except Interrupt Unit × Interpreter × World}
    (hp : Program.parse source .standard = .ok p) (hf : p.fitted) (h : Reached source r) :
    ∀ e, r.1 = .error e → e.isMistyped = false := by
  obtain ⟨G, hc⟩ := Program.checked_of_parse hp
  exact (h.sound hc hf hp).outcome

/-- A program whose handler keeps the key in an array of anything. -/
def fittedSource : String :=
  "a:any\non key k:string\n    a = [[k] []]\n    print a\nend\n"

theorem fittedSource_reached_well_typed :
    ∃ p, Program.parse fittedSource .standard = .ok p ∧ p.fitted ∧
      ∃ r, Reached fittedSource r ∧ ∀ e, r.1 = .error e → e.isMistyped = false := by
  have hparse : (match Program.parse fittedSource .standard with
      | .ok p => p.fitted
      | .error _ => false) = true := by decide +kernel
  cases hp : Program.parse fittedSource .standard with
  | error problems => rw [hp] at hparse; cases hparse
  | ok p =>
    rw [hp] at hparse
    have hkey : Datum.AreFor [.str "a"] "key" := ⟨_, rfl, .cons rfl .nil⟩
    have hrun : Reached fittedSource (fresh.1.run { store := fresh.2 } fittedSource 5) := .run 5 rfl
    have hreached := hrun.event hkey 5
    exact ⟨p, rfl, hparse, _, hreached, reached_well_typed hp hparse hreached⟩

/-- A slice of an array of texts goes into a variable for arrays of anything as it is, so that its
elements do not come as values of type `any`. -/
def unfitSource : String :=
  "a := [\"s\"]\nb:[]any\nb = a[:]\nfor x := range b\n    print x.(string)\nend\n"

theorem unfitSource_mistyped : (Program.parse unfitSource .standard).toOption.isSome ∧
    ∃ e, (fresh.1.run { store := fresh.2 } unfitSource 5).1 = .error e ∧ e.isMistyped = true := by
  have hrun : (match (fresh.1.run { store := fresh.2 } unfitSource 5).1 with
      | .error e => e.isMistyped
      | .ok _ => false) = true := by decide +kernel
  refine ⟨by decide +kernel, ?_⟩
  generalize (fresh.1.run { store := fresh.2 } unfitSource 5).1 = r at hrun
  cases r with
  | error e => exact ⟨e, rfl, hrun⟩
  | ok => cases hrun

end Interpreter

end TinyScript
