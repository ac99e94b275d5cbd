import TinyScript.Eval.Machine

/-! # What operators do -/

namespace TinyScript

open Eval

/-- An operator on two numbers. -/
def BinaryOp.onNums? (op : BinaryOp) (x y : Float) : Option Value :=
  match op with
  | .add => some (.num (x + y))
  | .sub => some (.num (x - y))
  | .mul => some (.num (x * y))
  | .div => some (.num (x / y))
  | .rem => some (.num (Number.rem x y))
  | .lt => some (.bool (x < y))
  | .gt => some (.bool (x > y))
  | .ltEq => some (.bool (x ≤ y))
  | .gtEq => some (.bool (x ≥ y))
  | _ => none

/-- An operator on two texts, which are ordered by code points. -/
def BinaryOp.onTexts? (op : BinaryOp) (s t : String) : Option Value :=
  match op with
  | .add => some (.str (s ++ t))
  | .lt => some (.bool (s < t))
  | .gt => some (.bool (t < s))
  | .ltEq => some (.bool (!(t < s)))
  | .gtEq => some (.bool (!(s < t)))
  | _ => none

/-- An operator on two truth values. -/
def BinaryOp.onBools? (op : BinaryOp) (a b : Bool) : Option Value :=
  match op with
  | .and => some (.bool (a && b))
  | .or => some (.bool (a || b))
  | _ => none

/-- The result of an operator, if it has one for operands of this kind. -/
def BinaryOp.resultOr (op : BinaryOp) (operand : String) : Option Value → Eval Value
  | some v => pure v
  | none => internal (.binaryOperand op operand)

/-- Applies an operator with two operands. -/
def BinaryOp.eval (op : BinaryOp) (left right : Value) : Eval Value :=
  match op, left, right with
  | .eq, l, r => return .bool (← answered (l.equals (← store) r))
  | .notEq, l, r => return .bool (!(← answered (l.equals (← store) r)))
  | op, .num x, .num y => op.resultOr "num" (op.onNums? x y)
  | op, .str s, .str t => op.resultOr "string" (op.onTexts? s t)
  | op, .bool a, .bool b => op.resultOr "bool" (op.onBools? a b)
  | .add, .array a tyA, .array b tyB => do
    let s ← store
    newArray (s.array a ++ s.array b) (if tyA.isEmpty then tyB else tyA)
  | op, l, _ => internal (.binaryOperand op l.typeOf.display)

/-- The result of an operator that its left operand settles. -/
def BinaryOp.settled? (op : BinaryOp) (left : Value) : Option Value :=
  match op, left with
  | .and, .bool false => some (.bool false)
  | .or, .bool true => some (.bool true)
  | _, _ => none

/-- Applies an operator with one operand. -/
def UnaryOp.eval (op : UnaryOp) (operand : Value) : Eval Value :=
  match op, operand with
  | .neg, .num x => return .num (-x)
  | .not, .bool b => return .bool (!b)
  | op, v => do internal (.unaryOperand op (← answered (v.display (← store))))

/-! ### Elements, slices and fields -/

/-- The element of an array, the character of a text or the value in a map at a key. -/
def Value.at (left key : Value) : Eval Value :=
  match left.unwrap, key.unwrap with
  | .array ref _, .num x => do orPanic ((← store).elemAt ref x)
  | .str s, .num x => orPanic ((Index.charAt s x).map .str)
  | .map ref _, .str k => do orPanic ((← store).fieldOf ref k)
  | l, k => internal (.notIndexable l.typeOf k.typeOf)

/-- A part of an array or a text. -/
def Value.slice (left : Value) (start stop : Option Float) : Eval Value :=
  match left.unwrap with
  | .array ref ty => do newArray (← orPanic ((← store).sliceOf ref start stop)) ty
  | .str s => orPanic ((Index.sliceText s start stop).map .str)
  | l => internal (.notSliceable l.typeOf)

/-- The value of a key of a map. -/
def Value.field (left : Value) (key : String) : Eval Value :=
  match left.unwrap with
  | .map ref _ => do orPanic ((← store).fieldOf ref key)
  | l => internal (.noFields l.typeOf)

/-- The value in a slot of type `any`, if it is of the expected type. -/
def Value.asserted (v : Value) (expected : Ty) : Eval Value :=
  match v with
  | .any inner =>
    if expected.fits inner.typeOf then pure inner
    else fail (.panic (.anyConversion expected inner.typeOf))
  | v => internal (.notAny v.typeOf)

/-- The number that a value is. -/
def Value.number (v : Value) : Eval Float :=
  match v.unwrap with
  | .num x => pure x
  | v => internal (.notNumber v.typeOf)

/-- Changes an element of an array. -/
def Eval.setElem (ref : Nat) (x : Float) (v : Value) : Eval Unit := do
  let i ← orPanic ((← store).placeOf ref x)
  modifyStore (·.setElem ref i v)

/-- Changes the value of a key of a map. -/
def Eval.setField (ref : Nat) (key : String) (v : Value) : Eval Unit :=
  modifyStore (·.modifyMap ref (·.insert key v))

end TinyScript
