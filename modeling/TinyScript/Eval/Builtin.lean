import TinyScript.Builtin
import TinyScript.Eval.Machine
import TinyScript.Font
import TinyScript.Printf
import TinyScript.Text.Blank
import TinyScript.Text.LetterCase
import TinyScript.Text.Search

/-! # What built-in functions do

Built-in functions get their arguments as values. A value in a slot of type `any` counts as what is
inside. -/

namespace TinyScript

open Eval

/-! ### Arguments -/

namespace Eval

/-- The argument at place `i`. -/
def arg (args : List Value) (i : Nat) : Eval Value :=
  match args[i]? with
  | some v => pure v.unwrap
  | none => internal (.missingArgument (i + 1))

def numArg (args : List Value) (i : Nat) : Eval Float := do
  match ← arg args i with
  | .num x => return x
  | v => internal (.argumentType "num" v.typeOf)

def strArg (args : List Value) (i : Nat) : Eval String := do
  match ← arg args i with
  | .str s => return s
  | v => internal (.argumentType "string" v.typeOf)

/-- The elements of an array argument. -/
def arrayArg (args : List Value) (i : Nat) : Eval (Array Value) := do
  match ← arg args i with
  | .array ref _ => return (← store).array ref
  | v => internal (.argumentType "array" v.typeOf)

/-- The reference of a map argument. -/
def mapArg (args : List Value) (i : Nat) : Eval Nat := do
  match ← arg args i with
  | .map ref _ => return ref
  | v => internal (.argumentType "map" v.typeOf)

/-- All arguments as numbers. -/
def numArgs (args : List Value) : Eval (List Float) :=
  (List.range args.length).mapM (numArg args)

/-- The format that is the first argument of function `func`. -/
def formatArg (func : String) (args : List Value) : Eval String :=
  match args.map Value.unwrap with
  | [] => badArguments (.noFormat func)
  | .str fmt :: _ => pure fmt
  | _ :: _ => badArguments (.formatNotString func)

end Eval

namespace Builtin

/-- A function on one text. -/
def onText (f : List Char → List Char) (args : List Value) : Eval Value := do
  return .str (String.ofList (f (← strArg args 0).toList))

/-- A function on one number. -/
def onNum (f : Float → Float) (args : List Value) : Eval Value := do
  return .num (f (← numArg args 0))

/-- A function on two numbers. -/
def onNums (f : Float → Float → Float) (args : List Value) : Eval Value := do
  return .num (f (← numArg args 0) (← numArg args 1))

/-- Asks the host for something without a result. -/
def drawn (c : HostCall) : Eval Value := do
  ask c
  return .none

def drawNum (c : Float → HostCall) (args : List Value) : Eval Value := do
  drawn (c (← numArg args 0))

def drawNums (c : Float → Float → HostCall) (args : List Value) : Eval Value := do
  drawn (c (← numArg args 0) (← numArg args 1))

def drawText (c : String → HostCall) (args : List Value) : Eval Value := do
  drawn (c (← strArg args 0))

/-! ### Text and values -/

/-- Writes values by the format that comes first. -/
def formatted (func : String) (args : List Value) : Eval String := do
  let fmt ← formatArg func args
  answered (Printf.format (← store) fmt args.tail)

/-- The values with a space between them. -/
def spaced (args : List Value) : Eval String := do
  answered (Value.joinTexts (← store) " " args)

/-- Notes in the globals `err` and `errmsg` whether a conversion failed, and with what message. -/
def noteError (message : Option String) : Eval Unit :=
  modifyFrames fun f =>
    (f.insertGlobal "err" (.bool message.isSome)).insertGlobal "errmsg" (.str (message.getD ""))

/-- Converts a text by `convert`, or notes the error and gives a default. -/
def converted (b : Builtin) (convert : String → Option Value) (missing : Value)
    (args : List Value) : Eval Value := do
  let s ← strArg args 0
  match convert s with
  | some v => noteError none; return v
  | none => noteError (some (b.name ++ ": cannot parse " ++ Text.quote s)); return missing

/-- The truth value that a text names. -/
def readBool? (s : String) : Option Bool :=
  if s ∈ ["1", "t", "T", "TRUE", "true", "True"] then some true
  else if s ∈ ["0", "f", "F", "FALSE", "false", "False"] then some false
  else none

/-- The number of elements of an array, pairs of a map or characters of a text. -/
def length (args : List Value) : Eval Value := do
  match ← arg args 0 with
  | .map ref _ => return .num (Float.ofNat ((← store).map ref).size)
  | .array ref _ => return .num (Float.ofNat ((← store).array ref).size)
  | .str s => return .num (Float.ofNat s.length)
  | v => badArguments (.lenOf v.typeOf)

/-! ### Random numbers -/

/-- A whole number from zero up to, and without, the given one. -/
def randomBelow (args : List Value) : Eval Value := do
  let upper ← numArg args 0
  if 1.0 ≤ upper && upper ≤ 2147483647.0 then
    let n ← randomly (Number.toInt64 upper).toNat
    return .num (Float.ofNat n)
  else badArguments (.randRange upper)

/-- A number from zero up to, and without, one. -/
def randomFraction : Eval Value := do
  let n ← randomly (Nat.pow 2 53)
  return .num ((Float.ofNat n).scaleB (-53))

/-! ### Drawing -/

/-- The vertices of a polygon, the first of which is argument number `i`. -/
def vertices : (i : Nat) → List Value → Eval (List (Float × Float))
  | _, [] => pure []
  | i, .array ref _ :: rest => do
    let elems := ((← store).array ref).toList
    if elems.length ≠ 2 then badArguments (.vertexSize i elems.length)
    let x ← numArg elems 0
    let y ← numArg elems 1
    return (x, y) :: (← vertices (i + 1) rest)
  | _, v :: _ => internal (.argumentType "array" v.typeOf)

/-- An ellipse from its centre, radii, rotation and angles, of which the later ones can be left
out. -/
def drawEllipse (args : List Value) : Eval Value := do
  if args.length < 3 || args.length = 6 || 7 < args.length then
    badArguments (.ellipseCount args.length)
  match ← numArgs args with
  | [x, y, r] => drawn (.ellipse x y r r 0.0 0.0 360.0)
  | [x, y, rx, ry] => drawn (.ellipse x y rx ry 0.0 0.0 360.0)
  | [x, y, rx, ry, rotation] => drawn (.ellipse x y rx ry rotation 0.0 360.0)
  | [x, y, rx, ry, rotation, start, stop] => drawn (.ellipse x y rx ry rotation start stop)
  | _ => badArguments (.ellipseCount args.length)

/-- Clears the drawing, with a colour if there is one. -/
def drawClear (args : List Value) : Eval Value := do
  if 1 < args.length then badArguments .clearCount
  if args.isEmpty then drawn (.clear "") else drawText .clear args

/-- Sets properties of the font. -/
def setFont (args : List Value) : Eval Value := do
  let ref ← mapArg args 0
  match Font.properties ((← store).map ref).toList with
  | .ok props => drawn (.font props)
  | .error why => badArguments why

/-! ### All functions -/

/-- Calls a built-in function. -/
def call (b : Builtin) (args : List Value) : Eval Value :=
  match b with
  | read => return .str (← readLine)
  | cls => drawn .cls
  | print => do drawn (.print ((← spaced args) ++ "\n"))
  | printf => do drawn (.print (← formatted b.name args))
  | sprint => return .str (← spaced args)
  | sprintf => return .str (← formatted b.name args)
  | join => do
    let elems ← arrayArg args 0
    let sep ← strArg args 1
    return .str (← answered (Value.joinTexts (← store) sep elems.toList))
  | split => do
    let s ← strArg args 0
    let sep ← strArg args 1
    let pieces := (Text.split sep.toList s.toList).map fun cs => Value.str (String.ofList cs)
    newArray pieces.toArray (.array .string)
  | upper => onText (·.map Text.upperChar) args
  | lower => onText (·.map Text.lowerChar) args
  | index => do
    let s ← strArg args 0
    let part ← strArg args 1
    return .num ((Text.find? part.toList s.toList).elim (-1.0) Float.ofNat)
  | startsWith => do
    let s ← strArg args 0
    let part ← strArg args 1
    return .bool (Text.after? part.toList s.toList).isSome
  | endsWith => do
    let s ← strArg args 0
    let part ← strArg args 1
    return .bool (Text.endsWith s.toList part.toList)
  | trim => do
    let cut ← strArg args 1
    onText (Text.trimWhere (· ∈ cut.toList)) args
  | replace => do
    let s ← strArg args 0
    let old ← strArg args 1
    let new ← strArg args 2
    return .str (String.ofList (Text.replace old.toList new.toList s.toList))
  | strToNum => converted b (fun s => (Decimal.readFloat? s).map .num) (.num 0.0) args
  | strToBool => converted b (fun s => (readBool? s).map .bool) (.bool false) args
  | typeName => return .str (← arg args 0).typeOf.display
  | len => length args
  | has => do
    let ref ← mapArg args 0
    let key ← strArg args 1
    return .bool (((← store).map ref).contains key)
  | del => do
    let ref ← mapArg args 0
    let key ← strArg args 1
    modifyStore (·.modifyMap ref (·.erase key))
    return .none
  | sleep => drawNum .sleep args
  | exit => do fail (.exit (Number.toInt32 (← numArg args 0)))
  | panic => do fail (.userPanic (← strArg args 0))
  | rand => randomBelow args
  | rand1 => randomFraction
  | min => onNums Number.least args
  | max => onNums Number.greatest args
  | pow => onNums Float.pow args
  | atan2 => onNums Float.atan2 args
  | floor => onNum Float.floor args
  | ceil => onNum Float.ceil args
  | round => onNum Float.round args
  | log => onNum Float.log args
  | sqrt => onNum Float.sqrt args
  | sin => onNum Float.sin args
  | cos => onNum Float.cos args
  | move => drawNums .move args
  | line => drawNums .line args
  | rect => drawNums .rect args
  | circle => drawNum .circle args
  | width => drawNum .width args
  | color | colour => drawText .color args
  | stroke => drawText .stroke args
  | fill => drawText .fill args
  | linecap => drawText .linecap args
  | text => drawText .text args
  | clear => drawClear args
  | grid => drawn (.grid 10.0 "hsl(0deg 100% 0% / 50%)")
  | gridn => do drawn (.grid (← numArg args 0) (← strArg args 1))
  | poly => do drawn (.poly (← vertices 1 args))
  | ellipse => drawEllipse args
  | dash => do drawn (.dash (← numArgs args))
  | font => setFont args

end Builtin

end TinyScript
