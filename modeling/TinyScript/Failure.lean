import TinyScript.Diagnostic.Message

/-! # Failures of a running program

Why a run ends early. All wording is here; a place in the source comes in front of it. -/

namespace TinyScript

open Text (quote)

/-- Arguments that a function of the prelude refuses. -/
inductive BadArguments where
  | noFormat (func : String)
  | formatNotString (func : String)
  | lenOf (found : Ty)
  | randRange (upper : Float)
  | clearCount
  | vertexSize (index count : Nat)
  | ellipseCount (count : Nat)
  | fontProperty (key : String)
  | fontType (key expected found : String)
  | fontOption (key : String) (allowed : List String) (found : String)
  | fontPositive (key : String)
  deriving Inhabited

def BadArguments.message : BadArguments → String
  | noFormat func => quote func ++ " takes at least 1 argument"
  | formatNotString func => "first argument of " ++ quote func ++ " must be a string"
  | lenOf found =>
    "\"len\" takes 1 argument of type \"string\", array \"[]\" or map \"\x7b\x7d\" not "
      ++ found.display
  | randRange upper => "\"rand " ++ Number.text upper ++ "\" not in range 1 to 2147483647"
  | clearCount => "\"clear\" takes 0 or 1 string arguments"
  | vertexSize index count =>
    s!"\"poly\" argument {index} has {count} elements, expected 2 (x, y)"
  | ellipseCount count => s!"\"ellipse\" requires 3, 4, 5 or 7 arguments, found {count}"
  | fontProperty key => "unknown property " ++ quote key
  | fontType key expected found =>
    "expected property " ++ quote key ++ " of type " ++ expected ++ ", found " ++ found
  | fontOption key allowed found =>
    "expected property " ++ quote key ++ " to be one of " ++ ", ".intercalate (allowed.map quote)
      ++ ", found " ++ quote found
  | fontPositive key => "expected property " ++ quote key ++ " to be greater than 0"

/-- Faults of the program that is run. -/
inductive Panic where
  | bounds (index : Int)
  | indexValue (index : Float)
  | zeroStep
  | mapKey (key : String)
  | slice (start stop : Nat)
  | badArguments (why : BadArguments)
  | anyConversion (expected found : Ty)
  deriving Inhabited

namespace Panic

/-- What went wrong in general. -/
def title : Panic → String
  | bounds _ => "index out of bounds"
  | indexValue _ => "expected integer index"
  | zeroStep => "bad range value"
  | mapKey _ => "no value for map key"
  | slice _ _ => "bad slice"
  | badArguments _ => "bad arguments"
  | anyConversion _ _ => "error converting any to type"

/-- What went wrong in particular. -/
def detail : Panic → String
  | bounds index => toString index
  | indexValue index => Number.text index
  | zeroStep => "step cannot be 0, infinite loop"
  | mapKey key => quote key
  | slice start stop => s!"{start} > {stop}"
  | badArguments why => why.message
  | anyConversion expected found => "expected " ++ expected.display ++ ", found " ++ found.display

def message (p : Panic) : String :=
  "panic: " ++ p.title ++ ": " ++ p.detail

end Panic

/-- Disagreements between the analysis of a program and its run. Only a program that meets globals
of an earlier one, or an event from outside, can meet one. -/
inductive Internal where
  | unknownFunction (name : String)
  | conditionType (found : Ty)
  | notNumber (found : Ty)
  | notIndexable (left key : Ty)
  | notSliceable (found : Ty)
  | noFields (found : Ty)
  | notAny (found : Ty)
  | missingArgument (index : Nat)
  | argumentType (expected : String) (found : Ty)
  | notIterable (found : Ty)
  | unboundVariable (name : String)
  | unaryOperand (op : UnaryOp) (operand : String)
  | binaryOperand (op : BinaryOp) (operand : String)
  | targetNotIndexable (found : Ty)
  | targetNoFields (found : Ty)
  | notTarget (literal : String)
  | noHandler (event : String)
  | missingParameters (event : String) (expected found : Nat)
  deriving Inhabited

namespace Internal

/-- What went wrong in general. -/
def title : Internal → String
  | unknownFunction _ => "unknown AST node"
  | conditionType _ | notNumber _ | notIndexable _ _ | notSliceable _ | noFields _ | notAny _
  | missingArgument _ | argumentType _ _ => "type error"
  | notIterable _ => "bad range type"
  | unboundVariable _ => "no variable"
  | unaryOperand _ _ | binaryOperand _ _ => "unknown operation"
  | targetNotIndexable _ | targetNoFields _ | notTarget _ => "bad assignment target"
  | noHandler _ | missingParameters _ _ _ => "bad event handler"

/-- What went wrong in particular. -/
def detail : Internal → String
  | unknownFunction name => "function " ++ name
  | conditionType found => "expected bool condition, found " ++ found.display
  | notNumber found => "expected num, found " ++ found.display
  | notIndexable left key => "cannot index " ++ left.display ++ " with " ++ key.display
  | notSliceable found => "cannot slice " ++ found.display
  | noFields found => "cannot access field of " ++ found.display
  | notAny found => "type assertion on " ++ found.display
  | missingArgument index => s!"missing argument {index}"
  | argumentType expected found => "expected " ++ expected ++ " argument, found " ++ found.display
  | notIterable found => "cannot range over " ++ found.display
  | unboundVariable name => name
  | unaryOperand op operand => "(unary) " ++ op.text ++ operand
  | binaryOperand op operand => operand ++ " " ++ op.text
  | targetNotIndexable found => "cannot index " ++ found.display
  | targetNoFields found => "cannot access field of " ++ found.display
  | notTarget literal => literal
  | noHandler event => "no handler for event " ++ event
  | missingParameters event expected found =>
    s!"event {event} expects {expected} parameters, got {found}"

def message (i : Internal) : String :=
  "internal error: " ++ i.title ++ ": " ++ i.detail

end Internal

/-- Why a run ends early. -/
inductive Cause where
  | parse (problems : List Diagnostic)
  | panic (p : Panic)
  | internal (i : Internal)
  /-- The host asked for it. -/
  | stopped
  /-- The program asked for it. -/
  | exit (code : Int)
  /-- The program failed on purpose. -/
  | userPanic (message : String)
  deriving Inhabited

namespace Cause

def message : Cause → String
  | parse problems => Diagnostic.displayAll problems
  | panic p => p.message
  | internal i => i.message
  | stopped => "stopped"
  | exit code => s!"exit {code}"
  | userPanic message => message

/-- Whether the cause belongs to a place in the source. -/
def hasPlace : Cause → Bool
  | parse _ | stopped | exit _ => false
  | panic _ | internal _ | userPanic _ => true

/-- Whether the cause is a fault of the program. -/
def isPanic : Cause → Bool
  | panic _ | userPanic _ => true
  | _ => false

end Cause

/-- Why and where a run ends early. -/
structure Failure where
  cause : Cause
  place : Option Position := none
  deriving Inhabited

namespace Failure

/-- Gives a failure its place, unless it has one or belongs to none. -/
def atToken (f : Failure) (token : Token) : Failure :=
  if f.place.isNone && f.cause.hasPlace then { f with place := some token.pos } else f

def message (f : Failure) : String :=
  match f.place with
  | some p => p.location ++ ": " ++ f.cause.message
  | none => f.cause.message

end Failure

end TinyScript
