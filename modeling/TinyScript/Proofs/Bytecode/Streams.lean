import TinyScript.Proofs.Bytecode.Decoding

/-!
# Streams of instructions

Nothing separates the instructions of a stream, which take one, three or five bytes. All who read what was
encoded still find the same instructions at the same places (`Decodes`, `decodes_encodeAll`): listings go from
one item to the next, and a machine always reads two operands and uses those that the operation has. Places
are the sums of the sizes before them, and an operand that is changed there changes in the list
(`patch_encodeAll`).
-/

namespace TinyScript.Bytecode
open Assemble

variable {code : Code} {p k n v : Nat} {i : Instr} {is : List Instr}

/-! ### Places -/

theorem getElem?_listing (p : Nat) (is : List Instr) (k : Nat) :
    (listing p is)[k]? = is[k]?.map fun i => (p + sizeAll (is.take k), i) := by
  induction is generalizing p k with
  | nil => rfl
  | cons i is ih =>
    cases k with
    | zero => rfl
    | succ k =>
      simp only [listing, List.getElem?_cons_succ, List.take_succ_cons, sizeAll_cons, ih, Nat.add_assoc]

theorem length_listing (p : Nat) (is : List Instr) : (listing p is).length = is.length := by
  induction is generalizing p with
  | nil => rfl
  | cons i is ih => simp [listing, ih]

theorem sizeAll_take_succ (hk : is[k]? = some i) :
    sizeAll (is.take (k + 1)) = sizeAll (is.take k) + i.size := by
  rw [List.take_add_one, hk, sizeAll_append]
  rfl

theorem Placed.getElem? (h : Placed code p is) (hk : is[k]? = some i) :
    InstrAt code (p + sizeAll (is.take k)) i := by
  refine h.instrAt (List.mem_of_getElem? (i := k) ?_)
  rw [getElem?_listing, hk, Option.map_some]

/-! ### Machines -/

/-- Does an instruction. -/
def Instr.perform (i : Instr) : Exec Unit :=
  Exec.perform i.op (i.operands.getD 0 0) (i.operands.getD 1 0)

/-- Operands that an operation does not have make no difference. -/
theorem Exec.perform_congr {op : Opcode} {m m' n n' : Nat} (hm : 0 < op.arity → m = m')
    (hn : 1 < op.arity → n = n') : Exec.perform op m n = Exec.perform op m' n' := by
  cases op
  case iterRange => rw [hm (by decide), hn (by decide)]
  case constant | getGlobal | setGlobal | drop | array | map | jump | jumpNotTruthy =>
    obtain rfl := hm (by decide)
    rfl
  all_goals rfl

/-- The operands stand one after the other from the byte after the operation on. -/
theorem InstrAt.word_eq (h : InstrAt code p i) (hk : k < i.op.arity) :
    code.word (p + 1 + 2 * k) = i.operands.getD k 0 := by
  rw [← h.2, List.getD_eq_getElem?_getD, Code.operands, List.getElem?_map, List.getElem?_range hk,
    Option.map_some, Option.getD_some]

/-- A machine at the place of an instruction does the instruction, and goes on behind it. -/
theorem InstrAt.step_eq {vm : Vm} (h : InstrAt code p i) (hcode : vm.code = code) (hip : vm.ip = p) :
    vm.fetch? = some i.op.toByte ∧ vm.step i.op.toByte =
      ((do Exec.jump (p + i.size); i.perform) : Exec Unit).run.run vm := by
  subst hcode hip
  refine ⟨h.1, ?_⟩
  have hperform : Exec.perform i.op (vm.code.word (vm.ip + 1)) (vm.code.word (vm.ip + 3)) = i.perform :=
    Exec.perform_congr h.word_eq h.word_eq
  rw [Vm.step, Exec.instruction, Opcode.ofByte?_toByte, ← hperform]
  rfl

/-! ### Reading -/

/-- Code is read as instructions, each at the sum of the sizes before it. -/
structure Decodes (code : Code) (is : List Instr) : Prop where
  /-- There are as many items as instructions, -/
  size : code.items.size = is.length
  /-- and they are the instructions, each at its place. -/
  items : ∀ k i, is[k]? = some i → code.items[k]? = some (sizeAll (is.take k), .instr i.op i.operands)
  /-- A listing has a line for each instruction, with its place, its name and its operands. -/
  listing : code.listing = String.join (is.mapIdx fun k i =>
    " ".intercalate (Code.placeText (sizeAll (is.take k)) :: i.op.name :: i.operands.map toString) ++ "\n")
  /-- A machine that gets to the place of an instruction does it, and goes on with the next one, -/
  step : ∀ k i, is[k]? = some i → ∀ vm : Vm, vm.code = code → vm.ip = sizeAll (is.take k) →
    vm.fetch? = some i.op.toByte ∧ vm.step i.op.toByte =
      ((do Exec.jump (sizeAll (is.take (k + 1))); i.perform) : Exec Unit).run.run vm
  /-- and after the last one it ends. -/
  halt : ∀ vm : Vm, vm.code = code → vm.ip = sizeAll is → vm.fetch? = none

theorem items_encodeAll (h : ∀ i ∈ is, i.Fits) :
    (Code.items (encodeAll is).toArray).toList = (listing 0 is).map fun e => (e.1, e.2.item) := by
  have hplaced : Placed (encodeAll is).toArray 0 is := by simpa using Placed.of_encodeAll [] [] h
  rw [Code.items, itemsFrom_of_placed hplaced (by simp [length_encodeAll])]
  rfl

/-- A listing is the lines of the items. -/
theorem Code.listing_eq_join (code : Code) : code.listing = String.join (code.items.toList.map itemText) := by
  rw [Code.listing, ← Array.foldl_toList, String.join, List.foldl_map]

/-- What was encoded is read back. -/
theorem decodes_encodeAll (h : ∀ i ∈ is, i.Fits) : Decodes (encodeAll is).toArray is := by
  have hplaced : Placed (encodeAll is).toArray 0 is := by simpa using Placed.of_encodeAll [] [] h
  have hitems := items_encodeAll h
  refine ⟨?_, ?_, ?_, ?_, ?_⟩
  · rw [← Array.length_toList, hitems, List.length_map, length_listing]
  · intro k i hk
    rw [← Array.getElem?_toList, hitems, List.getElem?_map, getElem?_listing, hk]
    simp [Instr.item]
  · rw [Code.listing_eq_join, hitems]
    congr 1
    refine List.ext_getElem? fun k => ?_
    rw [List.getElem?_map, List.getElem?_map, getElem?_listing, List.getElem?_mapIdx, Option.map_map,
      Option.map_map, Nat.zero_add]
    rfl
  · intro k i hk vm hcode hip
    rw [sizeAll_take_succ hk]
    exact (by simpa using hplaced.getElem? hk : InstrAt _ _ i).step_eq hcode hip
  · intro vm hcode hip
    rw [Vm.fetch?, hcode, hip]
    simp [length_encodeAll]

/-! ### Changing operands -/

/-- The instruction with an operand replaced. -/
def Instr.withOperand (i : Instr) (n v : Nat) : Instr :=
  { i with operands := i.operands.set n v }

theorem Instr.Fits.withOperand (h : i.Fits) (hv : v ≤ maxWord) : (i.withOperand n v).Fits where
  arity := by rw [Instr.withOperand, List.length_set, h.arity]
  words m hm := by
    rcases List.mem_or_eq_of_mem_set hm with hm | rfl
    · exact h.words m hm
    · exact hv

theorem Instr.Fits.set (h : ∀ i ∈ is, i.Fits) (hi : i.Fits) : ∀ j ∈ is.set k i, j.Fits := by
  intro j hj
  rcases List.mem_or_eq_of_mem_set hj with hj | rfl
  · exact h j hj
  · exact hi

/-- Changing an operand at the place of an instruction changes the instruction in the list. -/
theorem patch_encodeAll (h : ∀ i ∈ is, i.Fits) (hk : is[k]? = some i) (hn : n < i.op.arity) :
    Code.patch (encodeAll is).toArray (sizeAll (is.take k)) n v =
      (encodeAll (is.set k (i.withOperand n v))).toArray := by
  obtain ⟨hlt, hi⟩ := List.getElem?_eq_some_iff.1 hk
  have hencode : encodeAll is = encodeAll (is.take k) ++ (i.encode ++ encodeAll (is.drop (k + 1))) := by
    rw [← encodeAll_cons, ← encodeAll_append, ← hi, ← List.drop_eq_getElem_cons hlt, List.take_append_drop]
  have hpatch := patch_encode (encodeAll (is.take k)) (encodeAll (is.drop (k + 1))) (n := v)
    (h i (List.mem_of_getElem? hk)) hn
  rw [length_encodeAll] at hpatch
  have hset : is.set k (i.withOperand n v) = is.take k ++ i.withOperand n v :: is.drop (k + 1) := by
    rw [List.set_eq_take_append_cons_drop, if_pos hlt]
  rw [hencode, hpatch, hset, encodeAll_append, encodeAll_cons]
  rfl

/-- A stream is read as the instructions that were encoded. Changing an operand, at the place of its
instruction, gives the stream of the instructions with that operand changed. -/
theorem encodeAll_roundtrip (h : ∀ i ∈ is, i.Fits) :
    Decodes (encodeAll is).toArray is ∧
    ∀ k i, is[k]? = some i → ∀ n < i.op.arity, ∀ v < 65536,
      Code.patch (encodeAll is).toArray (sizeAll (is.take k)) n v =
          (encodeAll (is.set k (i.withOperand n v))).toArray ∧
        Decodes (encodeAll (is.set k (i.withOperand n v))).toArray (is.set k (i.withOperand n v)) := by
  refine ⟨decodes_encodeAll h, fun k i hk n hn v hv => ⟨patch_encodeAll h hk hn, ?_⟩⟩
  have hi : (i.withOperand n v).Fits := (h i (List.mem_of_getElem? hk)).withOperand (Nat.le_of_lt_succ hv)
  exact decodes_encodeAll (Instr.Fits.set h hi)

/-- A loop over an array constant: instructions of all three sizes, and operands up to the largest. -/
def loopStream : List Instr :=
  [⟨.constant, [65535]⟩, ⟨.iterRange, [1, 258]⟩, ⟨.add, []⟩, ⟨.jump, [3]⟩, ⟨.none, []⟩]

theorem loopStream_roundtrip :
    (∀ i ∈ loopStream, i.Fits) ∧ Decodes (encodeAll loopStream).toArray loopStream ∧
      (Code.patch (encodeAll loopStream).toArray 3 1 13).toList =
        [0, 255, 255, 34, 0, 1, 0, 13, 4, 31, 0, 3, 30] := by
  have hfits : ∀ i ∈ loopStream, i.Fits := by
    intro i hi
    have harity : ∀ i ∈ loopStream, i.operands.length = i.op.arity := by decide
    have hwords : ∀ i ∈ loopStream, ∀ n ∈ i.operands, n ≤ maxWord := by decide
    exact ⟨harity i hi, hwords i hi⟩
  obtain ⟨hdecodes, hpatch⟩ := encodeAll_roundtrip hfits
  have hpatched := (hpatch 1 ⟨.iterRange, [1, 258]⟩ rfl 1 (by decide) 13 (by decide)).1
  exact ⟨hfits, hdecodes, (congrArg Array.toList hpatched).trans (by decide)⟩

end TinyScript.Bytecode
