/-! # Command lines

What the arguments of the program ask for. Arguments are read from left to right, and the first one
that asks for help or makes no sense settles the matter. -/

namespace TinyScript.CommandLine

/-- What to do. -/
inductive Command where
  /-- Runs a program, and shows it a number of frames. -/
  | run (path : String) (frames : Nat) (skipSleep : Bool)
  /-- Lays out a program: prints it, writes it back or checks it. -/
  | format (path : String) (write check : Bool)
  /-- Lists the tokens of a program. -/
  | tokens (path : String)
  deriving DecidableEq, Repr, Inhabited

/-- The file that a command is about. -/
def Command.path : Command → String
  | .run path _ _ | .format path _ _ | .tokens path => path

/-- Why there is nothing to do. -/
inductive Usage where
  | help
  | invalid
  deriving DecidableEq, Repr, Inhabited

def Usage.exitCode : Usage → Nat
  | .help => 0
  | .invalid => 2

/-- Options of commands. -/
inductive Flag where
  | frames | skipSleep | write | check
  deriving DecidableEq, Repr, Inhabited

namespace Flag

def name : Flag → String
  | .frames => "--frames" | .skipSleep => "--skip-sleep" | .write => "--write"
  | .check => "--check"

/-- Whether a value follows the option. -/
def takesValue : Flag → Bool
  | .frames => true
  | _ => false

end Flag

/-- Arguments of a command. -/
structure Arguments where
  path : Option String := none
  frames : Option Nat := none
  flags : List Flag := []
  deriving DecidableEq, Repr, Inhabited

/-- Reads a number of 64 bits: digits after an optional plus sign. -/
def readCount? (s : String) : Option Nat :=
  let cs := s.toList
  let ds := if cs.head? = some '+' then cs.tail else cs
  if ds.isEmpty || !ds.all Char.isDigit then none
  else
    let n := ds.foldl (fun n d => n * 10 + (d.toNat - 48)) 0
    if n < Nat.pow 2 64 then some n else none

/-- Whether an argument is an option, and not a value. -/
def isOption (arg : String) : Bool :=
  arg.startsWith "-" && arg != "-"

/-- Whether an argument asks for help. -/
def isHelp (arg : String) : Bool :=
  arg == "--help" || arg.startsWith "-h"

/-- The name of a long option, and the value after an equals sign. -/
def splitOption (arg : String) : String × Option String :=
  let cs := arg.toList
  let name := String.ofList (cs.takeWhile (· != '='))
  match cs.dropWhile (· != '=') with
  | [] => (name, none)
  | _ :: value => (name, some (String.ofList value))

namespace Arguments

/-- Takes the path, of which there is one. -/
def setPath (a : Arguments) (path : String) : Except Usage Arguments :=
  if a.path.isSome || path.isEmpty then .error .invalid else .ok { a with path := some path }

/-- Takes an option, which may occur once. -/
def setFlag (a : Arguments) (f : Flag) (value : Option String) : Except Usage Arguments :=
  if f ∈ a.flags then .error .invalid
  else
    let a := { a with flags := f :: a.flags }
    match f.takesValue, value with
    | true, some v =>
      match readCount? v with
      | some n => .ok { a with frames := some n }
      | none => .error .invalid
    | false, none => .ok a
    | _, _ => .error .invalid

/-- Reads arguments with the options that are allowed. After two dashes there are no options. -/
def read (allowed : List Flag) (a : Arguments) : List String → Except Usage Arguments
  | [] => .ok a
  | "--" :: rest => rest.foldlM setPath a
  | arg :: rest => do
    if isHelp arg then .error .help
    if isOption arg then
      let (name, value) := splitOption arg
      match allowed.find? (·.name == name) with
      | none => .error .invalid
      | some f =>
        if f.takesValue && value.isNone then
          match rest with
          | [] => .error .invalid
          | v :: rest =>
            if isOption v then .error .invalid
            read allowed (← a.setFlag f (some v)) rest
        else read allowed (← a.setFlag f value) rest
    else read allowed (← a.setPath arg) rest

end Arguments

/-- Reads the arguments of a command, one of which is the path. -/
def readFor (allowed : List Flag) (args : List String) : Except Usage (String × Arguments) := do
  let a ← Arguments.read allowed {} args
  match a.path with
  | some path => return (path, a)
  | none => .error .invalid

/-- The names of commands. -/
def commandNames : List String :=
  ["run", "fmt", "tokens", "help"]

/-- Reads a command line. -/
def parse : List String → Except Usage Command
  | "run" :: args => do
    let (path, a) ← readFor [.frames, .skipSleep] args
    return .run path (a.frames.getD 0) (.skipSleep ∈ a.flags)
  | "fmt" :: args => do
    let (path, a) ← readFor [.write, .check] args
    let write := .write ∈ a.flags
    let check := .check ∈ a.flags
    if write ∧ check then .error .invalid
    return .format path write check
  | "tokens" :: args => do
    let (path, _) ← readFor [] args
    return .tokens path
  | ["help"] => .error .help
  | ["help", command] => .error (if command ∈ commandNames then .help else .invalid)
  | arg :: _ => .error (if isHelp arg then .help else .invalid)
  | [] => .error .invalid

end TinyScript.CommandLine
