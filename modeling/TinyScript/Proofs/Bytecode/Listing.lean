import Mathlib.Algebra.GroupWithZero.Nat
import Mathlib.Data.List.Basic
import TinyScript.Bytecode.Assembly

/-!
# Code as a list of instructions

`Instr` is an operation with its operands, and `encodeAll` writes a list of them as bytes.
`InstrAt code pos i` says that code holds instruction `i` at a byte offset, `Placed code pos is`
that it holds a list of them from there on. Reading at a place gives back what was written
(`Placed.of_encodeAll`), and changing an operand of one instruction leaves the others alone
(`patch_encode`).
-/

namespace TinyScript.Bytecode

/-- An operation with its operands. -/
structure Instr where
  op : Opcode
  operands : List Nat := []
  deriving DecidableEq, Repr

namespace Instr

def size (i : Instr) : Nat :=
  i.op.size

def encode (i : Instr) : List UInt8 :=
  i.op.encode i.operands

/-- The operation has all its operands, and each of them is a word. -/
structure Fits (i : Instr) : Prop where
  arity : i.operands.length = i.op.arity
  words : ∀ n ∈ i.operands, n ≤ Assemble.maxWord

theorem Fits.headD_le {i : Instr} (h : i.Fits) : i.operands.headD 0 ≤ Assemble.maxWord := by
  cases hn : i.operands with
  | nil => exact Nat.zero_le _
  | cons n ns => exact h.words n (hn ▸ List.mem_cons_self)

theorem size_pos (i : Instr) : 0 < i.size := by
  simp only [size, Opcode.size]; omega

/-- With all its operands, an instruction is a byte followed by a word each. -/
theorem encode_eq {i : Instr} (h : i.operands.length = i.op.arity) :
    i.encode = i.op.toByte :: i.operands.flatMap wordBytes := by
  simp only [encode, Opcode.encode, ← h, List.cons.injEq, true_and]
  generalize i.operands = args
  induction args with
  | nil => rfl
  | cons n args ih =>
    rw [List.length_cons, List.range_succ_eq_map, List.flatMap_cons, List.flatMap_map]
    exact congrArg (wordBytes n ++ ·) ih

theorem length_encode (i : Instr) : i.encode.length = i.size := by
  simp only [encode, Opcode.encode, size, Opcode.size, List.length_cons, List.length_flatMap,
    wordBytes, List.length_nil, List.map_const', List.length_range, List.sum_replicate_nat]
  omega

end Instr

/-- The bytes of instructions one after the other. -/
def encodeAll (is : List Instr) : List UInt8 :=
  is.flatMap Instr.encode

/-- The number of bytes of instructions. -/
def sizeAll (is : List Instr) : Nat :=
  (is.map Instr.size).sum

@[simp] theorem encodeAll_nil : encodeAll [] = [] := rfl

@[simp] theorem encodeAll_cons (i : Instr) (is : List Instr) :
    encodeAll (i :: is) = i.encode ++ encodeAll is := rfl

@[simp] theorem encodeAll_append (is js : List Instr) :
    encodeAll (is ++ js) = encodeAll is ++ encodeAll js := List.flatMap_append

@[simp] theorem sizeAll_nil : sizeAll [] = 0 := rfl

@[simp] theorem sizeAll_cons (i : Instr) (is : List Instr) :
    sizeAll (i :: is) = i.size + sizeAll is := rfl

@[simp] theorem sizeAll_append (is js : List Instr) :
    sizeAll (is ++ js) = sizeAll is + sizeAll js := by
  simp [sizeAll]

theorem length_encodeAll (is : List Instr) : (encodeAll is).length = sizeAll is := by
  induction is with
  | nil => rfl
  | cons i is ih => simp [ih, i.length_encode]

/-! ### Reading -/

theorem Opcode.toByte_inj {op op' : Opcode} (h : op.toByte = op'.toByte) : op = op' :=
  Option.some.inj (by rw [← ofByte?_toByte, ← ofByte?_toByte, h])

/-- Code holds an instruction at a place. -/
def InstrAt (code : Code) (pos : Nat) (i : Instr) : Prop :=
  code[pos]? = some i.op.toByte ∧ code.operands i.op (pos + 1) = i.operands

/-- Code holds instructions from a place on. -/
def Placed (code : Code) : (pos : Nat) → List Instr → Prop
  | _, [] => True
  | pos, i :: is => InstrAt code pos i ∧ Placed code (pos + i.size) is

variable {code : Code} {pos : Nat} {i : Instr} {is : List Instr}

/-- A place holds one instruction only. -/
theorem InstrAt.unique {j : Instr} (h : InstrAt code pos i) (h' : InstrAt code pos j) : i = j := by
  obtain ⟨op, ns⟩ := i
  obtain ⟨op', ns'⟩ := j
  obtain rfl : op = op' := Opcode.toByte_inj (Option.some.inj (h.1.symm.trans h'.1))
  obtain rfl : ns = ns' := h.2.symm.trans h'.2
  rfl

@[simp] theorem placed_nil : Placed code pos [] := trivial

theorem placed_cons :
    Placed code pos (i :: is) ↔ InstrAt code pos i ∧ Placed code (pos + i.size) is := Iff.rfl

theorem word_of_wordBytes (pre post : List UInt8) {n : Nat} (h : n ≤ Assemble.maxWord) :
    Code.word (pre ++ (wordBytes n ++ post)).toArray pre.length = n := by
  have hn : n < 65536 := Nat.lt_of_le_of_lt h (by decide)
  simp only [Code.word, wordBytes, List.getElem?_toArray, Nat.le_refl, List.getElem?_append_right,
    Nat.sub_self, Nat.le_add_right, Nat.add_sub_cancel_left, List.cons_append, List.nil_append,
    List.getElem?_cons_zero, List.getElem?_cons_succ, UInt8.toNat_ofNat']
  omega

theorem length_flatMap_wordBytes (ns : List Nat) : (ns.flatMap wordBytes).length = 2 * ns.length := by
  induction ns with
  | nil => rfl
  | cons n ns ih => simp [ih, wordBytes]; omega

theorem word_of_flatMap (pre post : List UInt8) {ns : List Nat} {k n : Nat}
    (hw : ∀ n ∈ ns, n ≤ Assemble.maxWord) (hk : ns[k]? = some n) :
    Code.word (pre ++ (ns.flatMap wordBytes ++ post)).toArray (pre.length + 2 * k) = n := by
  have hlt : k < ns.length := (List.getElem?_eq_some_iff.1 hk).1
  have hsplit : ns = ns.take k ++ n :: ns.drop (k + 1) := by
    rw [← (List.getElem?_eq_some_iff.1 hk).2, ← List.drop_eq_getElem_cons hlt, List.take_append_drop]
  have hlen : (pre ++ (ns.take k).flatMap wordBytes).length = pre.length + 2 * k := by
    rw [List.length_append, length_flatMap_wordBytes, List.length_take, Nat.min_eq_left (Nat.le_of_lt hlt)]
  have := word_of_wordBytes (pre ++ (ns.take k).flatMap wordBytes)
    ((ns.drop (k + 1)).flatMap wordBytes ++ post) (hw n (List.mem_of_getElem? hk))
  rw [hlen] at this
  rw [← this]
  congr 2
  conv_lhs => rw [hsplit]
  simp [List.append_assoc]

theorem instrAt_of_bytes (pre post : List UInt8) (h : i.Fits) :
    InstrAt (pre ++ (i.encode ++ post)).toArray pre.length i := by
  rw [Instr.encode_eq h.arity]
  refine ⟨by simp, List.ext_getElem? fun k => ?_⟩
  rw [Code.operands, List.getElem?_map]
  by_cases hk : k < i.op.arity
  · have hk' : k < i.operands.length := h.arity ▸ hk
    rw [List.getElem?_range hk, List.getElem?_eq_getElem hk', Option.map_some, Option.some_inj]
    have := word_of_flatMap (pre ++ [i.op.toByte]) post h.words
      (List.getElem?_eq_getElem hk')
    simpa [Nat.add_assoc] using this
  · have hk' : ¬ k < i.operands.length := h.arity ▸ hk
    simp [hk, hk']

/-- Instructions that were written are read back. -/
theorem Placed.of_encodeAll (pre post : List UInt8) (h : ∀ i ∈ is, i.Fits) :
    Placed (pre ++ (encodeAll is ++ post)).toArray pre.length is := by
  induction is generalizing pre with
  | nil => trivial
  | cons i is ih =>
    obtain ⟨hi, his⟩ := List.forall_mem_cons.1 h
    refine placed_cons.2 ⟨?_, ?_⟩
    · simpa using instrAt_of_bytes pre (encodeAll is ++ post) hi
    · have := ih (pre ++ i.encode) his
      simpa [i.length_encode] using this

/-! ### Writing -/

theorem append_eq (code : Code) (bytes : List UInt8) : code.append bytes = code ++ bytes.toArray := by
  simp [Code.append]

theorem setWord_wordBytes (pre post : List UInt8) (m n : Nat) :
    Code.setWord (pre ++ (wordBytes m ++ post)).toArray pre.length n =
      (pre ++ (wordBytes n ++ post)).toArray := by
  have h0 : pre.length ≤ pre.length := Nat.le_refl _
  have h1 : pre.length ≤ pre.length + 1 := Nat.le_add_right _ _
  rw [Code.setWord, if_pos (by simp [wordBytes])]
  simp only [wordBytes, List.setIfInBounds_toArray, List.set_append_right _ _ h0,
    List.set_append_right _ _ h1, Nat.sub_self, Nat.add_sub_cancel_left, List.cons_append,
    List.nil_append, List.set_cons_zero, List.set_cons_succ]

/-- Changing an operand of an instruction leaves the code around it alone. -/
theorem patch_encode (pre post : List UInt8) {k n : Nat} (h : i.Fits) (hk : k < i.op.arity) :
    Code.patch (pre ++ (i.encode ++ post)).toArray pre.length k n =
      (pre ++ (({ i with operands := i.operands.set k n } : Instr).encode ++ post)).toArray := by
  have hk' : k < i.operands.length := h.arity ▸ hk
  have hi : i.operands = i.operands.take k ++ i.operands[k] :: i.operands.drop (k + 1) := by
    rw [← List.drop_eq_getElem_cons hk', List.take_append_drop]
  have hlen : ((i.operands.take k).flatMap wordBytes).length = 2 * k := by
    rw [length_flatMap_wordBytes, List.length_take, Nat.min_eq_left (Nat.le_of_lt hk')]
  have hset : i.operands.set k n = i.operands.take k ++ n :: i.operands.drop (k + 1) := by
    rw [List.set_eq_take_append_cons_drop, if_pos hk']
  rw [Instr.encode_eq h.arity, Instr.encode_eq (i := { i with operands := i.operands.set k n })
    (by simpa using h.arity)]
  have hop : (pre ++ (i.op.toByte :: i.operands.flatMap wordBytes ++ post)).toArray[pre.length]?
      = some i.op.toByte := by simp
  rw [Code.patch, hop, Option.bind_some, Opcode.ofByte?_toByte, hset]
  conv_lhs => rw [hi]
  simp only [List.flatMap_append, List.flatMap_cons, Nat.min_eq_left (Nat.le_of_lt hk)]
  generalize List.flatMap wordBytes (List.drop (k + 1) i.operands) = rest
  generalize List.flatMap wordBytes (List.take k i.operands) = front at hlen
  have := setWord_wordBytes (pre ++ i.op.toByte :: front) (rest ++ post) i.operands[k] n
  simpa [hlen, Nat.add_assoc, Nat.add_comm 1] using this

end TinyScript.Bytecode
