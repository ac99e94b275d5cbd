import TinyScript.Bytecode.Cell
import TinyScript.Bytecode.Code

/-! # The stack machine

A machine that runs code on a stack of fixed size. Values that are popped stay in their slots until
others take their place, so that the last one can be looked at. -/

namespace TinyScript.Bytecode

/-- Faults that code of a compiled program does not have. -/
inductive Fault where
  | stackUnderflow
  | noConstant (n : Nat)
  | noGlobal (n : Nat)
  | expected (what found : String)
  deriving DecidableEq, Repr, Inhabited

def Fault.message : Fault → String
  | .stackUnderflow => "stack underflow"
  | .noConstant n => s!"no constant {n}"
  | .noGlobal n => s!"no global {n}"
  | .expected what found => "expected " ++ what ++ ", found " ++ found

/-- Why the machine does not come to the end of its code. -/
inductive VmError where
  | stackOverflow
  | unknownOpcode (byte : UInt8)
  | fault (f : Fault)
  | panic (p : Panic)
  /-- A comparison of arrays or maps that contain themselves goes on for ever: nothing is reported. -/
  | endless
  deriving Inhabited

def VmError.message : VmError → String
  | .stackOverflow => "stack overflow"
  | .unknownOpcode byte => s!"internal error: unknown opcode {byte.toNat}"
  | .fault f => "internal error: " ++ f.message
  | .panic p => p.message
  | .endless => ""

/-- The number of slots on the stack. -/
def stackSize : Nat := 2048

/-- The number of slots for variables. -/
def globalsSize : Nat := 65536

/-- The machine with its code. -/
structure Vm where
  code : Code
  constants : Array Cell
  store : Store Cell := {}
  globals : Array Cell := Array.replicate globalsSize .none
  stack : Array Cell := Array.replicate stackSize .none
  /-- The next free slot of the stack. -/
  sp : Nat := 0
  /-- The place of the next instruction. -/
  ip : Nat := 0
  deriving Inhabited

/-- Steps of the machine. -/
abbrev Exec := ExceptT VmError (StateM Vm)

namespace Exec

variable {α : Type}

def fault (f : Fault) : Exec α :=
  throw (.fault f)

/-- Reports that a value is not what was expected. -/
def mistyped (what : String) (found : Cell) : Exec α :=
  fault (.expected what found.typeName)

/-- Takes over a fault of an operation on values. -/
def orPanic : Except Panic α → Exec α
  | .ok a => pure a
  | .error p => throw (.panic p)

def store : Exec (Store Cell) :=
  return (← get).store

/-- Goes on with an answer, for which the machine looks for ever if there is none. -/
def answered : Option α → Exec α
  | some a => pure a
  | none => throw .endless

/-! ### The stack -/

def push (c : Cell) : Exec Unit := do
  let vm ← get
  if vm.sp < vm.stack.size then
    modify fun vm => { vm with stack := vm.stack.setIfInBounds vm.sp c, sp := vm.sp + 1 }
  else throw .stackOverflow

/-- Frees slots on top of the stack. -/
def drop (n : Nat) : Exec Unit := do
  if (← get).sp < n then fault .stackUnderflow
  modify fun vm => { vm with sp := vm.sp - n }

def pop : Exec Cell := do
  drop 1
  let vm ← get
  return vm.stack.getD vm.sp .none

/-- Pops values, the lowest first. -/
def popMany (n : Nat) : Exec (Array Cell) := do
  drop n
  let vm ← get
  return vm.stack.extract vm.sp (vm.sp + n)

def popNum : Exec Float := do
  match ← pop with
  | .num x => return x
  | c => mistyped "num" c

def popBool : Exec Bool := do
  match ← pop with
  | .bool b => return b
  | c => mistyped "bool" c

def popText : Exec String := do
  match ← pop with
  | .str s => return s
  | c => mistyped "string" c

/-- Pops a number that can be left out. -/
def popBound : Exec (Option Float) := do
  match ← pop with
  | .none => return none
  | .num x => return some x
  | c => mistyped "num" c

/-- Replaces two numbers by a value. -/
def onNums (f : Float → Float → Cell) : Exec Unit := do
  let right ← popNum
  let left ← popNum
  push (f left right)

/-- Replaces two texts by a value. -/
def onTexts (f : String → String → Cell) : Exec Unit := do
  let right ← popText
  let left ← popText
  push (f left right)

/-! ### Arrays and maps -/

/-- Pushes a new array. -/
def pushArray (elems : Array Cell) : Exec Unit := do
  let ref ← modifyGet fun vm =>
    let (ref, store) := vm.store.newArray elems
    (ref, { vm with store })
  push (.array ref)

/-- Pushes a new map. -/
def pushMap (pairs : Pairs Cell) : Exec Unit := do
  let ref ← modifyGet fun vm =>
    let (ref, store) := vm.store.newMap pairs
    (ref, { vm with store })
  push (.map ref)

/-- The pairs of keys and values that come by turns, after the pairs `done`. -/
def pairUp (done : Pairs Cell) : List Cell → Exec (Pairs Cell)
  | .str key :: value :: rest => pairUp (done.insert key value) rest
  | key :: _ :: _ => mistyped "string key" key
  | _ => return done

/-- The element, character or field at an index. -/
def valueAt (left index : Cell) : Exec Cell :=
  match left, index with
  | .array ref, .num x => do orPanic ((← store).elemAt ref x)
  | .str s, .num x => orPanic ((Index.charAt s x).map .str)
  | .map ref, .str key => do orPanic ((← store).fieldOf ref key)
  | left, _ => mistyped "array, string or map" left

/-- Changes an element or field. -/
def setAt (container index value : Cell) : Exec Unit :=
  match container, index with
  | .array ref, .num x => do
    let i ← orPanic ((← store).placeOf ref x)
    modify fun vm => { vm with store := vm.store.setElem ref i value }
  | .map ref, .str key =>
    modify fun vm => { vm with store := vm.store.modifyMap ref (·.insert key value) }
  | container, _ => mistyped "array or map" container

/-- Pushes a part of an array or a text. -/
def pushSlice (left : Cell) (start stop : Option Float) : Exec Unit :=
  match left with
  | .array ref => do pushArray (← orPanic ((← store).sliceOf ref start stop))
  | .str s => do push (.str (← orPanic (Index.sliceText s start stop)))
  | left => mistyped "array or string" left

/-! ### Loops -/

/-- The iterator on top of the stack, made of the value there if it is none yet. -/
def topIter : Exec RangeIter := do
  let vm ← get
  if vm.sp = 0 then fault .stackUnderflow
  match vm.stack.getD (vm.sp - 1) .none with
  | .range iter => return iter
  | c =>
    match RangeIter.over? vm.store c with
    | some iter => return iter
    | none => mistyped "range" c

/-- The next value of the iterator on top of the stack, which advances. -/
def advance : Exec (Option Cell) := do
  let iter ← topIter
  let (value, iter) := iter.next (← store)
  modify fun vm => { vm with stack := vm.stack.setIfInBounds (vm.sp - 1) (.range iter) }
  return value

def jump (target : Nat) : Exec Unit :=
  modify fun vm => { vm with ip := target }

/-! ### Instructions -/

/-- Does an operation with its operands. -/
def perform (op : Opcode) (operand operand2 : Nat) : Exec Unit :=
  match op with
  | .constant => do
    match (← get).constants[operand]? with
    | some c => push c
    | none => fault (.noConstant operand)
  | .getGlobal => do
    match (← get).globals[operand]? with
    | some c => push c
    | none => fault (.noGlobal operand)
  | .setGlobal => do
    let c ← pop
    if operand < (← get).globals.size then
      modify fun vm => { vm with globals := vm.globals.setIfInBounds operand c }
    else fault (.noGlobal operand)
  | .drop => drop operand
  | .add => onNums fun x y => .num (x + y)
  | .subtract => onNums fun x y => .num (x - y)
  | .multiply => onNums fun x y => .num (x * y)
  | .divide => onNums fun x y => .num (x / y)
  | .modulo => onNums fun x y => .num (Number.rem x y)
  | .true => push (.bool true)
  | .false => push (.bool false)
  | .none => push .none
  | .not => do push (.bool (!(← popBool)))
  | .minus => do push (.num (-(← popNum)))
  | .equal => do
    let right ← pop
    let left ← pop
    push (.bool (← answered (left.equals (← store) right)))
  | .notEqual => do
    let right ← pop
    let left ← pop
    push (.bool (!(← answered (left.equals (← store) right))))
  | .numLess => onNums fun x y => .bool (x < y)
  | .numLessEqual => onNums fun x y => .bool (x ≤ y)
  | .numGreater => onNums fun x y => .bool (x > y)
  | .numGreaterEqual => onNums fun x y => .bool (x ≥ y)
  | .stringLess => onTexts fun s t => .bool (s < t)
  | .stringLessEqual => onTexts fun s t => .bool (!(t < s))
  | .stringGreater => onTexts fun s t => .bool (t < s)
  | .stringGreaterEqual => onTexts fun s t => .bool (!(s < t))
  | .stringConcatenate => onTexts fun s t => .str (s ++ t)
  | .array => do pushArray (← popMany operand)
  | .arrayConcatenate => do
    let right ← pop
    let left ← pop
    match left, right with
    | .array a, .array b =>
      let s ← store
      pushArray (s.array a ++ s.array b)
    | left, _ => mistyped "arrays" left
  | .map => do pushMap (← pairUp .empty (← popMany operand).toList)
  | .index => do
    let index ← pop
    let left ← pop
    push (← valueAt left index)
  | .setIndex => do
    let index ← pop
    let container ← pop
    let value ← pop
    setAt container index value
  | .slice => do
    let stop ← popBound
    let start ← popBound
    let left ← pop
    pushSlice left start stop
  | .jump => jump operand
  | .jumpNotTruthy => do
    if !(← popBool) then jump operand
  | .stepRange => do
    let stride := (← popBound).getD 1.0
    let stop ← popNum
    let start := (← popBound).getD 0.0
    if stride == 0.0 then throw (.panic .zeroStep)
    push (.range (.step start stop stride))
  | .iterRange => do
    match ← advance with
    | some c => if operand ≠ 0 then push c
    | none =>
      drop 1
      jump operand2

/-- Does the instruction that starts with a byte. -/
def instruction (byte : UInt8) : Exec Unit := do
  match Opcode.ofByte? byte with
  | none => throw (.unknownOpcode byte)
  | some op =>
    let vm ← get
    let operand := vm.code.word (vm.ip + 1)
    let operand2 := vm.code.word (vm.ip + 3)
    jump (vm.ip + op.size)
    perform op operand operand2

end Exec

namespace Vm

/-- The value that was popped last, unless the stack is full. -/
def lastPopped? (vm : Vm) : Option Cell :=
  vm.stack[vm.sp]?

/-- The byte at the current place; none at the end of the code. -/
def fetch? (vm : Vm) : Option UInt8 :=
  vm.code[vm.ip]?

/-- Does the instruction that starts with a byte. -/
def step (vm : Vm) (byte : UInt8) : Except VmError Unit × Vm :=
  (Exec.instruction byte).run.run vm

/-- Runs at most `fuel` instructions. There is no result if the code does not end by then. -/
def run (vm : Vm) : (fuel : Nat) → Option (Except VmError Unit) × Vm
  | 0 => (none, vm)
  | fuel + 1 =>
    match vm.fetch? with
    | none => (some (.ok ()), vm)
    | some byte =>
      match vm.step byte with
      | (.ok (), vm) => run vm fuel
      | (.error e, vm) => (some (.error e), vm)

end Vm

end TinyScript.Bytecode
