import TinyScript.Value

/-! # Variables of a running program

Frames of variables. The globals are always there; blocks nest frames above them, and the body of a
function sees the globals and frames of its own only. -/

namespace TinyScript

/-- Variables by name; a name occurs once. -/
abbrev Frame := List (String × Value)

namespace Frame

def get? (f : Frame) (name : String) : Option Value :=
  f.lookup name

/-- Sets a variable that is there already. -/
def replace (name : String) (v : Value) : Frame → Frame
  | [] => []
  | (n, w) :: rest => if n = name then (n, v) :: rest else (n, w) :: replace name v rest

/-- Sets a variable. -/
def insert (f : Frame) (name : String) (v : Value) : Frame :=
  if (f.get? name).isSome then replace name v f else (name, v) :: f

end Frame

/-- The frames of a running program: the globals, and the frames above them, innermost first. -/
structure Frames where
  globals : Frame := []
  locals : List Frame := []
  deriving Inhabited

namespace Frames

/-- Opens a frame for a block. -/
def nest (f : Frames) : Frames :=
  { f with locals := [] :: f.locals }

/-- Closes the innermost frame; the globals stay. -/
def unnest (f : Frames) : Frames :=
  { f with locals := f.locals.tail }

/-- Opens the frame of a function's body, which hides all but the globals. -/
def enterBody (f : Frames) : Frames :=
  { f with locals := [[]] }

/-- Goes back to the frames `saved` after a function's body. -/
def leaveBody (f : Frames) (saved : List Frame) : Frames :=
  { f with locals := saved }

/-- Sets a variable of the innermost frame. -/
def insert (f : Frames) (name : String) (v : Value) : Frames :=
  match f.locals with
  | [] => { f with globals := f.globals.insert name v }
  | l :: ls => { f with locals := l.insert name v :: ls }

/-- Sets a global variable. -/
def insertGlobal (f : Frames) (name : String) (v : Value) : Frames :=
  { f with globals := f.globals.insert name v }

/-- The variable of the innermost frame that has one of this name. -/
def get? (f : Frames) (name : String) : Option Value :=
  (f.locals.findSome? (·.get? name)).or (f.globals.get? name)

/-- Sets the variable of the innermost of some frames that has one of this name. -/
def assignIn (name : String) (v : Value) : List Frame → Option (List Frame)
  | [] => none
  | l :: ls =>
    if (l.get? name).isSome then some (l.replace name v :: ls)
    else (assignIn name v ls).map (l :: ·)

/-- Sets the variable of the innermost frame that has one of this name. -/
def assign? (f : Frames) (name : String) (v : Value) : Option Frames :=
  match assignIn name v f.locals with
  | some locals => some { f with locals }
  | none =>
    if (f.globals.get? name).isSome then some { f with globals := f.globals.replace name v }
    else none

end Frames

end TinyScript
