/-! # Operation codes

The operations of the stack machine. An instruction is one byte for its operation, and two bytes
for each operand. -/

namespace TinyScript.Bytecode

/-- Operations. -/
inductive Opcode where
  /-- Pushes a constant. -/
  | constant
  | getGlobal
  /-- Pops a value into a global slot. -/
  | setGlobal
  /-- Drops values. -/
  | drop
  | add | subtract | multiply | divide | modulo
  | true | false | not | minus
  | equal | notEqual
  | numLess | numLessEqual | numGreater | numGreaterEqual
  | stringLess | stringLessEqual | stringGreater | stringGreaterEqual | stringConcatenate
  /-- Pops elements into a new array. -/
  | array
  | arrayConcatenate
  /-- Pops keys and values by turns into a new map. -/
  | map
  | index
  /-- Pops an index, a container and a value, and stores the value. -/
  | setIndex
  /-- Pops the end, the start and what is sliced. -/
  | slice
  /-- Pushes a mark for a value that is left out. -/
  | none
  | jump
  /-- Pops a truth value, and jumps if it is false. -/
  | jumpNotTruthy
  /-- Pops the step, the end and the start of a range of numbers, and pushes its iterator. -/
  | stepRange
  /-- Advances the iterator on top, which is made of what is there before the first round. The
  operands say whether to push what it gives, and where to go after popping it at its end. -/
  | iterRange
  deriving DecidableEq, Repr, Inhabited

namespace Opcode

/-- All operations in the order of their bytes. -/
def all : Array Opcode :=
  #[constant, getGlobal, setGlobal, drop, add, subtract, multiply, divide, modulo, true, false, not,
    minus, equal, notEqual, numLess, numLessEqual, numGreater, numGreaterEqual, stringLess,
    stringLessEqual, stringGreater, stringGreaterEqual, stringConcatenate, array, arrayConcatenate,
    map, index, setIndex, slice, none, jump, jumpNotTruthy, stepRange, iterRange]

/-- The byte of an operation. -/
def toByte (op : Opcode) : UInt8 :=
  .ofNat op.ctorIdx

/-- The operation of a byte. -/
def ofByte? (b : UInt8) : Option Opcode :=
  all[b.toNat]?

theorem ofByte?_toByte (op : Opcode) : ofByte? op.toByte = some op := by
  cases op <;> rfl

/-- The number of operands. -/
def arity : Opcode → Nat
  | constant | getGlobal | setGlobal | drop | array | map | jump | jumpNotTruthy => 1
  | iterRange => 2
  | _ => 0

/-- The number of bytes of an instruction. -/
def size (op : Opcode) : Nat :=
  1 + 2 * op.arity

/-- The name in listings. -/
def name : Opcode → String
  | constant => "OpConstant" | getGlobal => "OpGetGlobal" | setGlobal => "OpSetGlobal"
  | drop => "OpDrop" | add => "OpAdd" | subtract => "OpSubtract" | multiply => "OpMultiply"
  | divide => "OpDivide" | modulo => "OpModulo" | true => "OpTrue" | false => "OpFalse"
  | not => "OpNot" | minus => "OpMinus" | equal => "OpEqual" | notEqual => "OpNotEqual"
  | numLess => "OpNumLess" | numLessEqual => "OpNumLessEqual" | numGreater => "OpNumGreater"
  | numGreaterEqual => "OpNumGreaterEqual" | stringLess => "OpStringLess"
  | stringLessEqual => "OpStringLessEqual" | stringGreater => "OpStringGreater"
  | stringGreaterEqual => "OpStringGreaterEqual" | stringConcatenate => "OpStringConcatenate"
  | array => "OpArray" | arrayConcatenate => "OpArrayConcatenate" | map => "OpMap"
  | index => "OpIndex" | setIndex => "OpSetIndex" | slice => "OpSlice" | none => "OpNone"
  | jump => "OpJump" | jumpNotTruthy => "OpJumpNotTruthy" | stepRange => "OpStepRange"
  | iterRange => "OpIterRange"

end Opcode

end TinyScript.Bytecode
