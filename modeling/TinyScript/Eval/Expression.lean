import TinyScript.Eval.Operator

/-! # Evaluation of expressions

Operands are evaluated from left to right. A failure gets the place of the innermost expression
that it comes out of. Calls go through `invoke`, which calls a function by its name. -/

namespace TinyScript

open Eval

/-- How functions are called. -/
abbrev Invoke := String → List Value → Eval Value

variable (invoke : Invoke)

mutual

/-- Evaluates an expression. -/
def Expr.eval : Expr → Eval Value
  | .var m name => located m.token (lookup name)
  | .num _ x => pure (.num x)
  | .str _ s => pure (.str s)
  | .bool _ b => pure (.bool b)
  | .array m _ elems => located m.token do newArray (← Expr.evalList #[] elems) m.ty.unfixed
  | .map m _ pairs => located m.token do newMap (← Expr.evalPairs .empty pairs) m.ty.unfixed
  | .call m name args _ => located m.token do invoke name (← Expr.evalList #[] args).toList
  | .unary m op operand => located m.token do op.eval (← operand.eval)
  | .binary m op _ left right => located m.token do
    let l ← left.eval
    match op.settled? l with
    | some v => return v
    | none => op.eval l (← right.eval)
  | .index m left key => located m.token do
    let l ← left.eval
    l.at (← key.eval)
  | .slice m left start stop => located m.token do
    let l ← left.eval
    let a ← Expr.evalNumber? start
    let b ← Expr.evalNumber? stop
    l.slice a b
  | .dot m left key => located m.token do (← left.eval).field key
  | .group m inner => located m.token inner.eval
  | .assert m left => located m.token do (← left.eval).asserted m.ty
  | .any m inner => located m.token do return (← inner.eval).toAny

/-- Evaluates expressions in order, after the values `done`. -/
def Expr.evalList (done : Array Value) : List Expr → Eval (Array Value)
  | [] => pure done
  | e :: es => do
    let v ← e.eval
    Expr.evalList (done.push v) es

/-- Evaluates the values of a map literal in order, after the pairs `done`. -/
def Expr.evalPairs (done : Pairs Value) : List (String × Expr) → Eval (Pairs Value)
  | [] => pure done
  | (key, e) :: es => do
    let v ← e.eval
    Expr.evalPairs (done.insert key v) es

/-- Evaluates a bound of a slice, if it is there. -/
def Expr.evalNumber? : Option Expr → Eval (Option Float)
  | none => pure none
  | some e => do
    let v ← e.eval
    return some (← located e.token v.number)

end

/-- Evaluates an expression to a number. -/
def Expr.evalNumber (e : Expr) : Eval Float := do
  let v ← e.eval invoke
  located e.token v.number

/-- Changes what an expression denotes. -/
def Expr.assign (target : Expr) (v : Value) : Eval Unit :=
  match target with
  | .var _ name => Eval.assign name v
  | .index m left key => do
    let l ← left.eval invoke
    let k ← key.eval invoke
    match l, k with
    | .array ref _, .num x => located m.token (setElem ref x v)
    | .map ref _, .str k => setField ref k v
    | l, _ => internal (.targetNotIndexable l.typeOf)
  | .dot _ left key => do
    match ← left.eval invoke with
    | .map ref _ => setField ref key v
    | l => internal (.targetNoFields l.typeOf)
  | e => internal (.notTarget e.token.literal)

end TinyScript
