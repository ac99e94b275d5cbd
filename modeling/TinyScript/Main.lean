import TinyScript.CommandLine.Execute

/-! # The program

Reads files and lines, and shows what commands ask of the terminal. -/

namespace TinyScript.CommandLine

/-- What is said when a command line makes no sense, or asks for help. -/
def usageText : String :=
  "Usage: tinyscript run [--frames N] [--skip-sleep] PATH\n"
    ++ "       tinyscript fmt [--write | --check] PATH\n"
    ++ "       tinyscript tokens PATH\n"

/-- Reads a file. -/
def readSource (path : String) : IO (Except FileError String) := do
  try
    return .ok (← IO.FS.readFile path)
  catch
    | .noFileOrDirectory .. => return .error .missing
    | e => return .error (.other (toString e))

/-- Reads lines until there are no more. -/
partial def readAll (input : IO.FS.Stream) (done : String) : IO String := do
  let line ← input.getLine
  if line.isEmpty then return done else readAll input (done ++ line)

/-- Does what is asked of the terminal. -/
def perform (output : IO.FS.Stream) (c : HostCall) : IO Unit := do
  match c with
  | .sleep seconds => IO.sleep (seconds * 1000.0).toUInt32
  | c =>
    output.putStr (HostKind.terminal.after "" c)
    output.flush

/-- Number `k` of the random numbers that a seed gives. -/
def randomNumber (seed k : Nat) : Nat :=
  let z := UInt64.ofNat seed + UInt64.ofNat (k + 1) * 0x9E3779B97F4A7C15
  let z := (z ^^^ (z >>> 30)) * 0xBF58476D1CE4E5B9
  let z := (z ^^^ (z >>> 27)) * 0x94D049BB133111EB
  (z ^^^ (z >>> 31)).toNat

/-- Does what a command asks for. -/
def runCommand (c : Command) : IO UInt32 := do
  let source ← readSource c.path
  let input ←
    match source with
    | .ok text => if readsInput c text then readAll (← IO.getStdin) "" else pure ""
    | .error _ => pure ""
  let seed ← IO.rand 0 2147483647
  let o := execute c source (inputLines input) (randomNumber seed)
  let output ← IO.getStdout
  for call in o.calls do
    perform output call
  (← IO.getStderr).putStr o.errors
  match o.written with
  | some text => IO.FS.writeFile c.path text
  | none => pure ()
  return .ofNat o.exitCode

end TinyScript.CommandLine

open TinyScript.CommandLine in
/-- Runs the command that the arguments ask for. -/
def main (args : List String) : IO UInt32 := do
  match parse args with
  | .ok c => runCommand c
  | .error u =>
    let text := usageText
    if u.exitCode = 0 then IO.print text else IO.eprint text
    return .ofNat u.exitCode
