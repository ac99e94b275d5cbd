import TinyScript.Datum
import TinyScript.Eval.Program
import TinyScript.Parsing.Program
import TinyScript.Prelude.Standard

/-! # Sessions

A session runs programs one after the other and hands events to the last one. A program finds the
globals of the programs before it. A session can hold several interpreters, copied from each other,
which share one world. -/

namespace TinyScript

/-- What an interpreter keeps between programs. -/
structure Interpreter where
  frames : Frames := {}
  funcs : List Function := []
  handlers : List Handler := []
  deriving Inhabited

namespace Interpreter

/-- The globals that the prelude declares, with their first values. -/
def withGlobals (vars : List Var) (store : Store Value) : Interpreter × Store Value :=
  vars.foldl
    (fun (i, s) x =>
      let (v, s) := Value.zero x.ty s
      ({ i with frames := i.frames.insertGlobal x.name v }, s))
    ({}, store)

/-- The value of a global variable. -/
def global? (i : Interpreter) (name : String) : Option Value :=
  i.frames.get? name

/-- The names of the events that are handled, in order. -/
def handlerNames (i : Interpreter) : List String :=
  (i.handlers.map (·.name)).mergeSort fun a b => !(b < a)

/-- Evaluates in the world `w`. -/
def eval (i : Interpreter) (w : World) (m : Eval Unit) : Except Interrupt Unit × Interpreter × World :=
  let (r, machine) := m.run.run ⟨w, i.frames⟩
  (r, { i with frames := machine.frames }, machine.world)

/-- Runs a program. Its functions and handlers replace those of the program before it. -/
def run (i : Interpreter) (w : World) (source : String) (fuel : Nat) :
    Except Interrupt Unit × Interpreter × World :=
  match Program.parse source .standard with
  | .error problems => (.error (.failed ⟨.parse problems, none⟩), i, w)
  | .ok p => { i with funcs := p.funcs, handlers := p.handlers }.eval w (p.run fuel)

/-- Hands an event to its handler. -/
def handle (i : Interpreter) (w : World) (event : String) (params : List Value) (fuel : Nat) :
    Except Interrupt Unit × Interpreter × World :=
  i.eval w do
    if w.stopped then Eval.fail .stopped
    match i.handlers.find? (·.name == event) with
    | none => Eval.internal (.noHandler event)
    | some h =>
      if params.length < h.params.length then
        Eval.internal (.missingParameters event h.params.length params.length)
      h.run i.funcs fuel params

end Interpreter

/-- Interpreters in one world. -/
structure Session where
  world : World := {}
  interpreters : Array Interpreter := #[]
  deriving Inhabited

/-- What a step of a session showed: the text, the drawing and the number of statements. -/
structure Report where
  output : String
  drawing : List String
  statements : Nat
  deriving Inhabited

namespace Session

/-- More rounds of loops, and deeper calls, than a run can make. -/
def fuel : Nat := Nat.pow 10 15

/-- A session with one interpreter. -/
def new (host : Host) (stopAfter : Option Nat) (random : Nat → Nat) : Session :=
  let (i, store) := Interpreter.withGlobals Prelude.standard.globals {}
  { world := { store, host, stopAfter, random }, interpreters := #[i] }

/-- The interpreter with number `n`. -/
def interpreter (s : Session) (n : Nat) : Interpreter :=
  s.interpreters.getD n {}

/-- Takes over what became of interpreter `n` and the world. -/
def update (s : Session) (n : Nat) (r : Except Interrupt Unit × Interpreter × World) :
    Except Interrupt Unit × Session :=
  (r.1, { s with world := r.2.2, interpreters := s.interpreters.setIfInBounds n r.2.1 })

/-- Runs a program. -/
def run (s : Session) (n : Nat) (source : String) : Except Interrupt Unit × Session :=
  s.update n ((s.interpreter n).run s.world source fuel)

/-- Hands an event with its parameters to its handler. -/
def handle (s : Session) (n : Nat) (event : String) (params : List Datum) :
    Except Interrupt Unit × Session :=
  let (vs, store) := Datum.toValues s.world.store params
  s.update n ((s.interpreter n).handle { s.world with store } event vs fuel)

/-- Asks for the end of the run, or takes that back. -/
def setStopped (s : Session) (stopped : Bool) : Session :=
  { s with world := { s.world with stopped } }

/-- Gives more lines to read. -/
def feed (s : Session) (lines : List String) : Session :=
  let host := s.world.host
  { s with world := { s.world with host := { host with input := host.input ++ lines } } }

/-- Copies interpreter `n`. The result is the number of the copy. -/
def fork (s : Session) (n : Nat) : Nat × Session :=
  (s.interpreters.size, { s with interpreters := s.interpreters.push (s.interpreter n) })

/-- What the host showed since the last report. -/
def report (s : Session) : Report × Session :=
  let w := s.world
  (⟨w.host.output, w.host.drawing, w.ticks⟩,
    { s with world := { w with ticks := 0, host := { w.host with calls := #[] } } })

end Session

end TinyScript
