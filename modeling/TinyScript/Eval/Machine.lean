import TinyScript.Eval.Frames
import TinyScript.Host

/-! # The state of a run

What a running program changes: its variables, and the world that it shares with the copies made of
it, which holds arrays and maps, the host and the wish to stop. -/

namespace TinyScript

/-- What all copies of a running program share. -/
structure World where
  store : Store Value := {}
  host : Host := {}
  /-- Whether the host asked for the end of the run. -/
  stopped : Bool := false
  /-- The number of statements that were begun. -/
  ticks : Nat := 0
  /-- After how many statements the host asks for the end of the run. -/
  stopAfter : Option Nat := none
  /-- The random numbers of the run, one after the other. -/
  random : Nat → Nat := fun _ => 0
  /-- How many random numbers were drawn. -/
  draws : Nat := 0
  deriving Inhabited

/-- The state of a running program. -/
structure Machine where
  world : World := {}
  frames : Frames := {}
  deriving Inhabited

/-- Why an evaluation has no result. -/
inductive Interrupt where
  | failed (f : Failure)
  /-- The bound on rounds of loops and on the depth of calls was met, or there is no bound that would do:
  a value that contains itself has no text and may have no answer to a comparison. -/
  | outOfFuel
  deriving Inhabited

/-- Evaluations that change the state of a run, and can fail. -/
abbrev Eval := ExceptT Interrupt (StateM Machine)

namespace Eval

variable {α : Type}

/-- Fails without a place in the source. -/
def fail (c : Cause) : Eval α :=
  throw (.failed ⟨c, none⟩)

def internal (i : Internal) : Eval α :=
  fail (.internal i)

def badArguments (why : BadArguments) : Eval α :=
  fail (.panic (.badArguments why))

/-- Takes over a fault of an operation on values. -/
def orPanic : Except Panic α → Eval α
  | .ok a => pure a
  | .error p => fail (.panic p)

/-- Goes on with an answer, if there is one. -/
def answered : Option α → Eval α
  | some a => pure a
  | none => throw .outOfFuel

/-- Gives a failure that has no place yet the place of a token. -/
def located (token : Token) (m : Eval α) : Eval α :=
  ExceptT.mk do
    match ← m.run with
    | .error (.failed f) => return .error (.failed (f.atToken token))
    | r => return r

/-! ### Storage -/

def store : Eval (Store Value) :=
  return (← get).world.store

def modifyStore (f : Store Value → Store Value) : Eval Unit :=
  modify fun m => { m with world := { m.world with store := f m.world.store } }

/-- Takes over a value together with the storage it needs. -/
def keep (r : Value × Store Value) : Eval Value := do
  modifyStore fun _ => r.2
  return r.1

/-- A new array value. -/
def newArray (elems : Array Value) (ty : Ty) : Eval Value :=
  modifyGet fun m =>
    let (ref, store) := m.world.store.newArray elems
    (.array ref ty, { m with world := { m.world with store } })

/-- A new map value. -/
def newMap (pairs : Pairs Value) (ty : Ty) : Eval Value :=
  modifyGet fun m =>
    let (ref, store) := m.world.store.newMap pairs
    (.map ref ty, { m with world := { m.world with store } })

/-! ### Variables -/

def modifyFrames (f : Frames → Frames) : Eval Unit :=
  modify fun m => { m with frames := f m.frames }

/-- The value of a variable. -/
def lookup (name : String) : Eval Value := do
  match (← get).frames.get? name with
  | some v => return v
  | none => internal (.unboundVariable name)

/-- Changes a variable. -/
def assign (name : String) (v : Value) : Eval Unit := do
  match (← get).frames.assign? name v with
  | some frames => modifyFrames fun _ => frames
  | none => internal (.unboundVariable name)

/-- Evaluates in a frame of its own. The frame goes whatever the outcome is. -/
def nested (m : Eval α) : Eval α :=
  ExceptT.mk do
    modify fun s => { s with frames := s.frames.nest }
    let r ← m.run
    modify fun s => { s with frames := s.frames.unnest }
    return r

/-- Evaluates where only globals are seen. The frames of before are back whatever the outcome is. -/
def inBody (m : Eval α) : Eval α :=
  ExceptT.mk do
    let saved := (← get).frames.locals
    modify fun s => { s with frames := s.frames.enterBody }
    let r ← m.run
    modify fun s => { s with frames := s.frames.leaveBody saved }
    return r

/-! ### The host -/

/-- Asks the host for something. -/
def ask (c : HostCall) : Eval Unit :=
  modify fun m => { m with world := { m.world with host := m.world.host.ask c } }

/-- Reads a line. -/
def readLine : Eval String :=
  modifyGet fun m =>
    let (line, host) := m.world.host.read
    (line, { m with world := { m.world with host } })

/-- The next random number, below `bound`. -/
def randomly (bound : Nat) : Eval Nat :=
  modifyGet fun m =>
    (m.world.random m.world.draws % bound, { m with world := { m.world with draws := m.world.draws + 1 } })

/-- Begins a statement, unless the host asked for the end of the run. -/
def tick : Eval Unit := do
  if (← get).world.stopped then fail .stopped
  modify fun m =>
    let w := m.world
    let ticks := w.ticks + 1
    { m with world := { w with ticks, stopped := w.stopAfter == some ticks } }

end Eval

end TinyScript
