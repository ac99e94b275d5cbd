import TinyScript.CommandLine.Arguments
import TinyScript.CommandLine.Directory
import TinyScript.Layout
import TinyScript.Session

/-! # Commands at work

What a command shows, which file it writes and how it ends, from the text of its file and the lines
that it can read. -/

namespace TinyScript.CommandLine

/-- What became of a command. -/
structure Outcome where
  exitCode : Nat := 0
  /-- What is asked of the terminal. -/
  calls : Array HostCall := #[]
  errors : String := ""
  /-- The new text of the file. -/
  written : Option String := none
  deriving Inhabited

/-- The text that a terminal shows. -/
def Outcome.output (o : Outcome) : String :=
  HostKind.terminal.output o.calls

/-- The lines of what can be read. A line ends before a line feed and a return in front of it. -/
def inputLines (input : String) : List String :=
  let lines := input.splitOn "\n"
  let ended := lines.dropLast.map fun line =>
    if line.endsWith "\r" then (line.dropEnd 1).toString else line
  let last := lines.getLast?.getD ""
  if last.isEmpty then ended else ended ++ [last]

/-- The number of problems that are shown. -/
def maxProblems : Nat := 8

/-- The first problems, a line each, and a mark if there are more. -/
def problemText (problems : List Diagnostic) : String :=
  Diagnostic.displayAll (problems.take maxProblems) ++ "\n"
    ++ (if maxProblems < problems.length then "...\n" else "")

/-- The exit code of a run that ended early, and what is said about it. -/
def ending : Interrupt → Nat × String
  | .failed f =>
    match f.cause with
    | .exit code => ((code % 256).toNat, "")
    | .stopped => (0, "")
    | .parse problems => (1, problemText problems)
    | _ => (1, f.message ++ "\n")
  | .outOfFuel => (1, "out of fuel\n")

/-! ### Running -/

/-- The time in milliseconds at which a frame begins. Frames are 16 milliseconds long, unless
there are no pauses. -/
def frameTime (skipSleep : Bool) (frame : Nat) : Float :=
  (if skipSleep then 0.0 else 16.0 * Float.ofNat frame) + 0.015625 * Float.ofNat (frame + 1)

/-- Shows frames to a program, from number `frame` on, until one of them fails. -/
def showFrames (skipSleep : Bool) (s : Session) (frame : Nat) :
    (left : Nat) → Except Interrupt Unit × Session
  | 0 => (.ok (), s)
  | left + 1 =>
    match s.handle 0 "animate" [.num (frameTime skipSleep frame)] with
    | (.ok (), s) =>
      let host := s.world.host.ask (.sleep 0.016)
      showFrames skipSleep { s with world := { s.world with host } } (frame + 1) left
    | r => r

/-- Runs a program, and shows it frames if it has a handler for them. -/
def runProgram (source : String) (frames : Nat) (skipSleep : Bool) (lines : List String)
    (random : Nat → Nat) : Outcome :=
  let s := Session.new { kind := .terminal, input := lines } none random
  let (result, s) := s.run 0 source
  let (result, s) :=
    match result with
    | .ok () =>
      if "animate" ∈ (s.interpreter 0).handlerNames then showFrames skipSleep s 0 frames
      else (.ok (), s)
    | r => (r, s)
  let isPause : HostCall → Bool
    | .sleep _ => true
    | _ => false
  let calls := s.world.host.calls.filter fun c => !(skipSleep && isPause c)
  match result with
  | .ok () => { calls }
  | .error e =>
    let (exitCode, errors) := ending e
    { exitCode, calls, errors }

/-- Lays out a program. -/
def formatProgram (path source : String) (write check : Bool) : Outcome :=
  match Program.parse source .standard with
  | .error problems => { exitCode := 1, errors := problemText problems }
  | .ok p =>
    let text := p.format
    if check then
      if text = source then {} else { exitCode := 1, errors := path ++ " is not formatted\n" }
    else if write then
      if text = source then {} else { written := some text }
    else { calls := #[.print text] }

/-- The end of a command whose file cannot be read. -/
def unreadable (path : String) (e : FileError) : Outcome :=
  { exitCode := 1
    errors := "Error: cannot read " ++ path ++ "\n\nCaused by:\n    " ++ e.message ++ "\n" }

/-- Does what a command asks for. -/
def execute (c : Command) (source : Except FileError String) (lines : List String)
    (random : Nat → Nat) : Outcome :=
  match source with
  | .error e => unreadable c.path e
  | .ok source =>
    match c with
    | .run _ frames skipSleep => runProgram source frames skipSleep lines random
    | .format path write check => formatProgram path source write check
    | .tokens _ => { calls := #[.print (Token.listing source)] }

/-- Whether a command can ask for lines to read. -/
def readsInput (c : Command) (source : String) : Bool :=
  match c with
  | .run .. => (Token.scan source).any fun t => t.kind == .ident && t.literal == "read"
  | _ => false

end TinyScript.CommandLine
