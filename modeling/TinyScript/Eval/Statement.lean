import TinyScript.Eval.Expression
import TinyScript.Stmt

/-! # Evaluation of statements

A statement ends in one of three ways: control goes on to the next one, leaves the loop around it,
or leaves the function with a value. Blocks have a frame of their own, and so has a `for` loop for
its variable. The rounds of a loop are bounded by fuel. -/

namespace TinyScript

open Eval

/-- How a statement hands on control. -/
inductive Flow where
  | next
  | ret (v : Value)
  | brk
  deriving Inhabited

namespace Flow

/-- Goes on to the next round of a loop, unless this round left the loop. -/
@[inline] def thenRound (flow : Flow) (round : Eval Flow) : Eval Flow :=
  match flow with
  | next => round
  | brk => pure next
  | ret v => pure (ret v)

end Flow

namespace Eval

/-- Runs rounds until one finds that its condition does not hold. -/
def whileLoop (round : Eval (Option Flow)) : (fuel : Nat) → Eval Flow
  | 0 => throw .outOfFuel
  | fuel + 1 => do
    match ← round with
    | none => pure .next
    | some flow => flow.thenRound (whileLoop round fuel)

/-- Whether a number is still before the end of a range. -/
def inRange (x stop step : Float) : Bool :=
  (step > 0.0 && x < stop) || (step < 0.0 && x > stop)

/-- Runs a round for each number from `x` on, up or down to `stop`. -/
def countLoop (round : Value → Eval Flow) (stop step : Float) : (fuel : Nat) → (x : Float) → Eval Flow
  | 0, _ => throw .outOfFuel
  | fuel + 1, x =>
    if inRange x stop step then do
      let flow ← round (.num x)
      flow.thenRound (countLoop round stop step fuel (x + step))
    else pure .next

/-- Runs a round for each element of an array from place `i` on, as it is when its turn comes. -/
def arrayLoop (round : Value → Eval Flow) (ref : Nat) : (fuel : Nat) → (i : Nat) → Eval Flow
  | 0, _ => throw .outOfFuel
  | fuel + 1, i => do
    match ((← store).array ref)[i]? with
    | some v =>
      let flow ← round v
      flow.thenRound (arrayLoop round ref fuel (i + 1))
    | none => pure .next

/-- Runs a round for each character. -/
def textLoop (round : Value → Eval Flow) : List Char → Eval Flow
  | [] => pure .next
  | c :: cs => do
    let flow ← round (.str (String.singleton c))
    flow.thenRound (textLoop round cs)

/-- Runs a round for each key that is still in the map when its turn comes. -/
def mapLoop (round : Value → Eval Flow) (ref : Nat) : List String → Eval Flow
  | [] => pure .next
  | key :: keys => do
    if ((← store).map ref).contains key then
      let flow ← round (.str key)
      flow.thenRound (mapLoop round ref keys)
    else mapLoop round ref keys

/-- Whether the condition of a branch at `token` holds. -/
def condition (token : Token) (v : Value) : Eval Bool :=
  match v.unwrap with
  | .bool b => pure b
  | v => located token (internal (.conditionType v.typeOf))

/-- Declares a variable. -/
def declare (var : Var) (v : Value) : Eval Flow := do
  modifyFrames (·.insert var.name (if var.ty.same .any then v.toAny else v))
  return .next

/-- Sets the variable of a loop, if it has one. -/
def bindLoopVar (var : Option Var) (v : Value) : Eval Unit :=
  match var with
  | some x => modifyFrames (·.insert x.name v)
  | none => pure ()

/-- Begins the statement at `token`, and places its failures there. -/
@[inline] def statement (token : Token) (m : Eval Flow) : Eval Flow := do
  tick
  located token m

end Eval

variable (invoke : Invoke) (fuel : Nat)

/-- Runs rounds of a loop over a range. -/
def Range.run (range : Range) (round : Value → Eval Flow) : Eval Flow :=
  match range with
  | .step start stop stride => do
    let x ← match start with
      | some e => e.evalNumber invoke
      | none => pure 0.0
    let last ← stop.evalNumber invoke
    let step ← match stride with
      | some e => e.evalNumber invoke
      | none => pure 1.0
    if step == 0.0 then located stop.token (fail (.panic .zeroStep))
    else countLoop round last step fuel x
  | .over e => do
    match (← e.eval invoke).unwrap with
    | .array ref _ => arrayLoop round ref fuel 0
    | .str s => textLoop round s.toList
    | .map ref _ => mapLoop round ref ((← store).map ref).keys
    | v => located e.token (internal (.notIterable v.typeOf))

mutual

/-- Runs a statement. -/
def Stmt.run : Stmt → Eval Flow
  | .empty token _ | .func token .. | .on token .. => statement token (pure .next)
  | .typedDecl token _ var value | .inferredDecl token _ var value =>
    statement token do declare var (← value.eval invoke)
  | .assign token _ target value => statement token do
    let v ← value.eval invoke
    target.assign invoke v
    return .next
  | .call token _ name args _ => statement token do
    let _ ← invoke name (← Expr.evalList invoke #[] args).toList
    return .next
  | .ret token _ none => statement token (pure (.ret .none))
  | .ret token _ (some value) => statement token do return .ret (← value.eval invoke)
  | .brk token _ => statement token (pure .brk)
  | .cond token _ first more otherwise => statement token do
    match ← first.run with
    | some flow => return flow
    | none =>
      match ← Branch.runFirst more with
      | some flow => return flow
      | none =>
        match otherwise with
        | some block => block.run
        | none => return .next
  | .loop token branch => statement token (whileLoop branch.run fuel)
  | .each token _ var range body => statement token <| nested <|
    range.run invoke fuel fun v => do
      bindLoopVar var v
      body.run

/-- Runs the block of a branch if its condition holds. -/
def Branch.run : Branch → Eval (Option Flow)
  | .mk token _ test body => do
    if ← condition token (← test.eval invoke) then return some (← body.run)
    else return none

/-- Runs the block of the first branch whose condition holds. -/
def Branch.runFirst : List Branch → Eval (Option Flow)
  | [] => pure none
  | branch :: more => do
    match ← branch.run with
    | some flow => return some flow
    | none => Branch.runFirst more

/-- Runs the statements of a block in a frame of their own. -/
def Block.run : Block → Eval Flow
  | .mk _ _ stmts => nested (Stmt.runAll stmts)

/-- Runs statements in order, until one does not go on to the next. -/
def Stmt.runAll : List Stmt → Eval Flow
  | [] => pure .next
  | s :: ss => do
    match ← s.run with
    | .next => Stmt.runAll ss
    | flow => return flow

end

end TinyScript
