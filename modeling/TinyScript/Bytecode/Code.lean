import TinyScript.Bytecode.Opcode

/-! # Code

Instructions as bytes: writing them, reading them back, and changing an operand. Operands have two
bytes, the high one first. -/

namespace TinyScript.Bytecode

/-- Instructions one after the other. -/
abbrev Code := Array UInt8

/-- An operand as bytes. Higher bits are cut off. -/
def wordBytes (n : Nat) : List UInt8 :=
  [.ofNat (n / 256), .ofNat n]

/-- An instruction as bytes. Operands that are missing are zero. -/
def Opcode.encode (op : Opcode) (operands : List Nat) : List UInt8 :=
  op.toByte :: (List.range op.arity).flatMap fun i => wordBytes (operands.getD i 0)

namespace Code

/-- The operand at an offset; zero where the code ends before it. -/
def word (code : Code) (offset : Nat) : Nat :=
  match code[offset]?, code[offset + 1]? with
  | some hi, some lo => hi.toNat * 256 + lo.toNat
  | _, _ => 0

/-- The operands of an operation that start at an offset. -/
def operands (code : Code) (op : Opcode) (offset : Nat) : List Nat :=
  (List.range op.arity).map fun i => code.word (offset + 2 * i)

/-- Adds bytes at the end. -/
def append (code : Code) (bytes : List UInt8) : Code :=
  bytes.foldl Array.push code

/-- Changes the operand at an offset, unless the code ends before it. -/
def setWord (code : Code) (offset n : Nat) : Code :=
  if offset + 2 ≤ code.size then
    (code.setIfInBounds offset (.ofNat (n / 256))).setIfInBounds (offset + 1) (.ofNat n)
  else code

/-- Changes operand number `i` of the instruction at `pos`. -/
def patch (code : Code) (pos i n : Nat) : Code :=
  match code[pos]?.bind Opcode.ofByte? with
  | some op => code.setWord (pos + 1 + 2 * min i op.arity) n
  | none => code

/-! ### Listings -/

/-- What stands at a place of the code. -/
inductive Item where
  | instr (op : Opcode) (operands : List Nat)
  | unknown (byte : UInt8)
  deriving DecidableEq, Repr

/-- The number of bytes that an item takes. -/
def Item.size : Item → Nat
  | .instr op _ => op.size
  | .unknown _ => 1

theorem Item.size_pos (i : Item) : 0 < i.size := by
  cases i <;> simp only [Item.size, Opcode.size] <;> omega

/-- What a byte at `pos` starts. -/
def itemAt (code : Code) (pos : Nat) (byte : UInt8) : Item :=
  match Opcode.ofByte? byte with
  | some op => .instr op (code.operands op (pos + 1))
  | none => .unknown byte

/-- The items from `pos` on, with their places, after the items `done`. -/
def itemsFrom (code : Code) (pos : Nat) (done : Array (Nat × Item)) : Array (Nat × Item) :=
  if _h : pos < code.size then
    let item := code.itemAt pos code[pos]
    code.itemsFrom (pos + item.size) (done.push (pos, item))
  else done
termination_by code.size - pos
decreasing_by
  have := Item.size_pos (code.itemAt pos code[pos])
  omega

/-- The items with their places. -/
def items (code : Code) : Array (Nat × Item) :=
  code.itemsFrom 0 #[]

/-- A number with at least four digits. -/
def placeText (pos : Nat) : String :=
  let digits := Nat.toDigits 10 pos
  String.ofList (List.replicate (4 - digits.length) '0' ++ digits)

def itemText : Nat × Item → String
  | (pos, .instr op operands) =>
    " ".intercalate (placeText pos :: op.name :: operands.map toString) ++ "\n"
  | (pos, .unknown byte) => placeText pos ++ s!" ERROR: unknown opcode {byte.toNat}\n"

/-- The code as text, a line for each instruction. -/
def listing (code : Code) : String :=
  code.items.foldl (fun text item => text ++ itemText item) ""

end Code

end TinyScript.Bytecode
