import TinyScript.Eval.Builtin
import TinyScript.Eval.Statement

/-! # Evaluation of functions, handlers and programs

A call looks for a built-in function first. Fuel bounds the depth of calls of declared functions as
well as the rounds of every loop. -/

namespace TinyScript

open Eval

/-- Gives the parameters of a function their arguments. The last arguments make one array if the
function takes any number of them. -/
def Signature.bind (sig : Signature) (args : List Value) : Eval Unit := do
  for (param, v) in sig.params.zip args do
    modifyFrames (·.insert param.name v)
  match sig.variadic with
  | some param =>
    let rest ← newArray (args.drop sig.params.length).toArray (.array param.ty)
    modifyFrames (·.insert param.name rest)
  | none => pure ()

/-- Calls a declared function. -/
def Function.call (f : Function) (invoke : Invoke) (fuel : Nat) (args : List Value) : Eval Value :=
  inBody do
    f.signature.bind args
    match ← Stmt.runAll invoke fuel f.body.stmts with
    | .ret v => return v
    | _ => return .none

/-- Calls a function by its name. -/
def invoke (funcs : List Function) (fuel : Nat) (name : String) (args : List Value) : Eval Value :=
  match Builtin.ofName? name with
  | some b => b.call args
  | none =>
    match funcs.find? (·.signature.name == name) with
    | none => internal (.unknownFunction name)
    | some f =>
      match fuel with
      | 0 => throw .outOfFuel
      | fuel + 1 => f.call (invoke funcs fuel) fuel args

/-- Runs the statements of a program. -/
def Program.run (p : Program) (fuel : Nat) : Eval Unit := do
  let _ ← Stmt.runAll (invoke p.funcs fuel) fuel p.stmts

/-- Gives the parameters of a handler their values, which have to be of their types. -/
def Handler.bind (h : Handler) (params : List Value) : Eval Unit := do
  for (param, v) in h.params.zip params do
    if !param.ty.same v.typeOf then
      located param.token (fail (.panic (.anyConversion param.ty v.typeOf)))
    modifyFrames (·.insert param.name v)

/-- Runs a handler. -/
def Handler.run (h : Handler) (funcs : List Function) (fuel : Nat) (params : List Value) :
    Eval Unit :=
  inBody do
    h.bind params
    let _ ← Stmt.runAll (invoke funcs fuel) fuel h.body.stmts

end TinyScript
