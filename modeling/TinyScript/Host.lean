import TinyScript.Number
import TinyScript.Text.Quoted

/-! # The host of a program

A host is what a program prints to, draws on and reads from. Everything that a program asks of its
host is recorded as a call; the text and the drawing are views of the recorded calls, and kinds of
hosts differ in these views and in what they give a program to read. -/

namespace TinyScript

/-- A value of a font property. -/
inductive FontValue where
  | num (x : Float)
  | str (s : String)
  deriving Inhabited

/-- What a program asks of its host. -/
inductive HostCall where
  | print (text : String)
  | cls
  | read
  | sleep (seconds : Float)
  | move (x y : Float)
  | line (x y : Float)
  | rect (dx dy : Float)
  | circle (radius : Float)
  | width (w : Float)
  | color (name : String)
  | clear (color : String)
  | grid (unit : Float) (color : String)
  | poly (vertices : List (Float × Float))
  | ellipse (x y radiusX radiusY rotation start stop : Float)
  | stroke (color : String)
  | fill (color : String)
  | dash (segments : List Float)
  | linecap (style : String)
  | text (s : String)
  | font (props : List (String × FontValue))
  deriving Inhabited

namespace HostCall

/-- The name of what is asked for. -/
def name : HostCall → String
  | print _ => "print" | cls => "cls" | read => "read" | sleep _ => "sleep"
  | move _ _ => "move" | line _ _ => "line" | rect _ _ => "rect" | circle _ => "circle"
  | width _ => "width" | color _ => "color" | clear _ => "clear" | grid _ _ => "gridn"
  | poly _ => "poly" | ellipse .. => "ellipse" | stroke _ => "stroke" | fill _ => "fill"
  | dash _ => "dash" | linecap _ => "linecap" | text _ => "text" | font _ => "font"

/-- A font property with its value. -/
def fontText : String × FontValue → String
  | (key, .num x) => key ++ ":" ++ Number.text x
  | (key, .str s) => key ++ ":" ++ Text.quote s

/-- The arguments of a call that draws; none for the other calls. -/
def drawing? : HostCall → Option (List String)
  | print _ | cls | read | sleep _ => none
  | move x y | line x y | rect x y => some [Number.text x, Number.text y]
  | circle x | width x => some [Number.text x]
  | color s | clear s | stroke s | fill s | linecap s => some [s]
  | grid unit shade => some [Number.text unit, shade]
  | poly vertices => some (vertices.map fun (x, y) => Number.text x ++ "," ++ Number.text y)
  | ellipse x y rx ry rotation start stop =>
    some ([x, y, rx, ry, rotation, start, stop].map Number.text)
  | dash segments => some (segments.map Number.text)
  | text s => some [Text.quote s]
  | font props => some (props.map fontText)

/-- The line that a call adds to a drawing. -/
def drawingLine? (c : HostCall) : Option String :=
  c.drawing?.map fun args => " ".intercalate (c.name :: args)

end HostCall

/-- Kinds of hosts. -/
inductive HostKind where
  /-- Keeps text and drawing, and gives lines to read. -/
  | recorder
  /-- Prints, and says of everything else that it cannot do it. -/
  | printer
  /-- Prints, gives lines to read and clears the screen, and says of drawing that it cannot. -/
  | terminal
  deriving DecidableEq, Repr, Inhabited

namespace HostKind

/-- The notice that a host cannot do something. -/
def notice (c : HostCall) : String :=
  Text.quote c.name ++ " not implemented\n"

/-- The text that a host shows after a call, given the text before it. -/
def after (k : HostKind) (shown : String) (c : HostCall) : String :=
  match k, c with
  | _, .print text => shown ++ text
  | .recorder, .cls => ""
  | .recorder, _ => shown
  | .printer, c => shown ++ notice c
  | .terminal, .cls => shown ++ "\x1b[2J\x1b[H"
  | .terminal, .read | .terminal, .sleep _ => shown
  | .terminal, c => shown ++ notice c

/-- The text that a host shows after some calls. -/
def output (k : HostKind) (calls : Array HostCall) : String :=
  calls.foldl k.after ""

/-- The drawing that some calls make, a line each. -/
def drawing (k : HostKind) (calls : Array HostCall) : List String :=
  match k with
  | .recorder => calls.toList.filterMap HostCall.drawingLine?
  | .printer | .terminal => []

end HostKind

/-- A host in use: the lines that are left to read, and the calls so far. -/
structure Host where
  kind : HostKind := .recorder
  input : List String := []
  calls : Array HostCall := #[]
  deriving Inhabited

namespace Host

/-- Records a call. -/
def ask (h : Host) (c : HostCall) : Host :=
  { h with calls := h.calls.push c }

/-- Gives a program a line to read, which is empty when there is none. -/
def read (h : Host) : String × Host :=
  let h := h.ask .read
  match h.kind, h.input with
  | .printer, _ | _, [] => ("", h)
  | _, line :: rest => (line, { h with input := rest })

/-- The text that the host shows. -/
def output (h : Host) : String :=
  h.kind.output h.calls

/-- The drawing that the host keeps. -/
def drawing (h : Host) : List String :=
  h.kind.drawing h.calls

end Host

end TinyScript
