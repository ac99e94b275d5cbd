import TinyScript.Token
import TinyScript.Ty

/-! # Signatures

Variables, the signatures of functions and events, and the prelude: what a host declares before a
program starts. -/

namespace TinyScript

/-- A variable with the token that declared it. -/
structure Var where
  token : Token
  name : String
  ty : Ty
  deriving DecidableEq, Repr, Inhabited

/-- A variable that no source declares. -/
def Var.builtin (name : String) (ty : Ty) : Var :=
  ⟨.synthetic .ident name, name, ty⟩

/-- The name, parameters and result type of a function or an event. -/
structure Signature where
  name : String
  params : List Var := []
  variadic : Option Var := none
  result : Ty := .none
  deriving DecidableEq, Repr, Inhabited

/-- Everything that a host declares: functions, events and global variables. -/
structure Prelude where
  funcs : List Signature
  events : List Signature
  globals : List Var
  deriving Repr, Inhabited

namespace Prelude

def func? (p : Prelude) (name : String) : Option Signature :=
  p.funcs.find? (·.name == name)

def event? (p : Prelude) (name : String) : Option Signature :=
  p.events.find? (·.name == name)

def isGlobal (p : Prelude) (name : String) : Bool :=
  p.globals.any (·.name == name)

end Prelude

end TinyScript
