import TinyScript.Proofs.Bytecode.Emission
import TinyScript.Proofs.Bytecode.StackEffect

/-!
# Chunks in code

A chunk is loaded (`Chunk.Loaded`) at a place of the code if its instructions are there and its constants
are among those of the code. Where a chunk that is put together from others is loaded, so are they, at the
places that its shape gives them.
-/

namespace TinyScript.Bytecode

theorem placed_append {code : Code} {p : Nat} {is js : List Instr} :
    Placed code p (is ++ js) ↔ Placed code p is ∧ Placed code (p + sizeAll is) js := by
  induction is generalizing p with
  | nil => simp
  | cons i is ih =>
    rw [List.cons_append, placed_cons, placed_cons, ih, and_assoc, sizeAll_cons, Nat.add_assoc]

theorem Code.word_lt (code : Code) (offset : Nat) : code.word offset < globalsSize := by
  unfold Code.word globalsSize
  split
  · next hi lo _ _ =>
    have := hi.toNat_lt
    have := lo.toNat_lt
    omega
  · decide

/-- Operands are words. -/
theorem InstrAt.operand_lt {code : Code} {p n : Nat} {op : Opcode} {ns : List Nat}
    (h : InstrAt code p ⟨op, n :: ns⟩) (hop : 0 < op.arity) : n < globalsSize := by
  have hn : code.word (p + 1) = n := h.first_operand hop
  exact hn ▸ code.word_lt _

namespace Chunk

theorem seq_assoc (c d e : Chunk) : (c.seq d).seq e = c.seq (d.seq e) := by
  simp only [seq, List.append_assoc, List.length_append, Nat.add_assoc]

theorem add_size_seq (c d : Chunk) (p : Nat) : p + (c.seq d).size = p + c.size + d.size :=
  (Nat.add_assoc ..).symm

/-- The code of a chunk stands at place `p` with its constants after the first `k`, and `break` goes to
`x`. -/
structure Loaded (a : Assembly) (c : Chunk) (k p x : Nat) : Prop where
  placed : Placed a.code p (c.code k p x)
  pool : ∀ i v, c.pool[i]? = some v → a.constants[k + i]? = some v

namespace Loaded
variable {a : Assembly} {c d e : Chunk} {k p x : Nat}

theorem instr {i : Instr} (h : (Chunk.instr i).Loaded a k p x) : InstrAt a.code p i :=
  h.placed.1

theorem const {v : Cell} (h : (Chunk.const v).Loaded a k p x) :
    InstrAt a.code p ⟨.constant, [k]⟩ ∧ a.constants[k]? = some v :=
  ⟨h.placed.1, h.pool 0 v rfl⟩

theorem pool_left {vs ws : List Cell} (h : ∀ (i : Nat) v, (vs ++ ws)[i]? = some v → a.constants[k + i]? = some v)
    (i : Nat) (v : Cell) (hv : vs[i]? = some v) : a.constants[k + i]? = some v :=
  h i v (by rw [List.getElem?_append_left (List.getElem?_eq_some_iff.1 hv).1]; exact hv)

theorem pool_right {vs ws : List Cell} (h : ∀ (i : Nat) v, (vs ++ ws)[i]? = some v → a.constants[k + i]? = some v)
    (i : Nat) (v : Cell) (hv : ws[i]? = some v) : a.constants[k + vs.length + i]? = some v := by
  rw [Nat.add_assoc]
  refine h (vs.length + i) v ?_
  rw [List.getElem?_append_right (Nat.le_add_right ..), Nat.add_sub_cancel_left]
  exact hv

theorem seq (hc : c.Regular) (h : (c.seq d).Loaded a k p x) :
    c.Loaded a k p x ∧ d.Loaded a (k + c.pool.length) (p + c.size) x := by
  obtain ⟨h₁, h₂⟩ := placed_append.1 h.placed
  rw [hc.sizeAll_code] at h₂
  exact ⟨⟨h₁, pool_left h.pool⟩, ⟨h₂, pool_right h.pool⟩⟩

theorem andAlso (hc : c.Closed) (hd : d.Closed) (h : (c.andAlso d).Loaded a k p x) :
    c.Loaded a k p x ∧ InstrAt a.code (p + c.size) ⟨.jumpNotTruthy, [p + c.size + 3 + d.size + 3]⟩ ∧
      d.Loaded a (k + c.pool.length) (p + c.size + 3) x ∧
      InstrAt a.code (p + c.size + 3 + d.size) ⟨.jump, [p + c.size + 3 + d.size + 4]⟩ ∧
      InstrAt a.code (p + c.size + 3 + d.size + 3) ⟨.false, []⟩ := by
  obtain ⟨h₁, h₂⟩ := placed_append.1 h.placed
  rw [hc.sizeAll_code] at h₂
  obtain ⟨hskip, h₃⟩ := placed_cons.1 h₂
  obtain ⟨h₄, h₅⟩ := placed_append.1 h₃
  rw [hd.sizeAll_code] at h₅
  obtain ⟨hend, hfalse, -⟩ := h₅
  refine ⟨⟨h₁, pool_left h.pool⟩, ?_, ⟨h₄, pool_right h.pool⟩, ?_, hfalse⟩
  · simpa only [Nat.add_assoc] using hskip
  · have hplace : p + c.size + 3 + d.size + 4 = p + (c.size + (3 + (d.size + 4))) := by omega
    rw [hplace]
    exact hend

theorem orElse (hc : c.Closed) (h : (c.orElse d).Loaded a k p x) :
    c.Loaded a k p x ∧ InstrAt a.code (p + c.size) ⟨.jumpNotTruthy, [p + c.size + 7]⟩ ∧
      InstrAt a.code (p + c.size + 3) ⟨.true, []⟩ ∧
      InstrAt a.code (p + c.size + 4) ⟨.jump, [p + c.size + 7 + d.size]⟩ ∧
      d.Loaded a (k + c.pool.length) (p + c.size + 7) x := by
  obtain ⟨h₁, h₂⟩ := placed_append.1 h.placed
  rw [hc.sizeAll_code] at h₂
  obtain ⟨hskip, htrue, hend, h₃⟩ := h₂
  refine ⟨⟨h₁, pool_left h.pool⟩, ?_, htrue, ?_, ⟨h₃, pool_right h.pool⟩⟩
  · simpa only [Nat.add_assoc] using hskip
  · have hplace : p + c.size + 7 + d.size = p + (c.size + (7 + d.size)) := by omega
    rw [hplace]
    exact hend

theorem arm (hc : c.Closed) (hd : d.Regular) (h : (c.arm d e).Loaded a k p x) :
    c.Loaded a k p x ∧ InstrAt a.code (p + c.size) ⟨.jumpNotTruthy, [p + c.size + 3 + d.size + 3]⟩ ∧
      d.Loaded a (k + c.pool.length) (p + c.size + 3) x ∧
      InstrAt a.code (p + c.size + 3 + d.size) ⟨.jump, [p + c.size + 3 + d.size + 3 + e.size]⟩ ∧
      e.Loaded a (k + c.pool.length + d.pool.length) (p + c.size + 3 + d.size + 3) x := by
  obtain ⟨h₁, h₂⟩ := placed_append.1 h.placed
  rw [hc.sizeAll_code] at h₂
  obtain ⟨hskip, h₃⟩ := placed_cons.1 h₂
  obtain ⟨h₄, h₅⟩ := placed_append.1 h₃
  rw [hd.sizeAll_code] at h₅
  obtain ⟨hend, h₆⟩ := placed_cons.1 h₅
  have hpool := pool_right h.pool
  exact ⟨⟨h₁, pool_left h.pool⟩, hskip, ⟨h₄, pool_left hpool⟩, hend, ⟨h₆, pool_right hpool⟩⟩

theorem loop (hc : c.Closed) (hd : d.Regular) (h : (c.loop d).Loaded a k p x) :
    let stop := p + c.size + 3 + d.size + 3
    c.Loaded a k p stop ∧ InstrAt a.code (p + c.size) ⟨.jumpNotTruthy, [stop]⟩ ∧
      d.Loaded a (k + c.pool.length) (p + c.size + 3) stop ∧
      InstrAt a.code (p + c.size + 3 + d.size) ⟨.jump, [p]⟩ := by
  obtain ⟨h₁, h₂⟩ := placed_append.1 h.placed
  rw [hc.sizeAll_code] at h₂
  obtain ⟨hskip, h₃⟩ := placed_cons.1 h₂
  obtain ⟨h₄, h₅⟩ := placed_append.1 h₃
  rw [hd.sizeAll_code] at h₅
  exact ⟨⟨h₁, pool_left h.pool⟩, hskip, ⟨h₄, pool_right h.pool⟩, h₅.1⟩

theorem each {binds : Bool} (hc : c.Closed) (hd : d.Closed) (he : e.Regular)
    (h : (c.each binds d e).Loaded a k p x) :
    let stop := p + c.size + 5 + d.size + e.size + 3
    c.Loaded a k p stop ∧ InstrAt a.code (p + c.size) ⟨.iterRange, [binds.toNat, stop]⟩ ∧
      d.Loaded a (k + c.pool.length) (p + c.size + 5) stop ∧
      e.Loaded a (k + c.pool.length + d.pool.length) (p + c.size + 5 + d.size) stop ∧
      InstrAt a.code (p + c.size + 5 + d.size + e.size) ⟨.jump, [p + c.size]⟩ := by
  obtain ⟨h₁, h₂⟩ := placed_append.1 h.placed
  rw [hc.sizeAll_code] at h₂
  obtain ⟨hiter, h₃⟩ := placed_cons.1 h₂
  obtain ⟨h₄, h₅⟩ := placed_append.1 h₃
  rw [hd.sizeAll_code] at h₅
  obtain ⟨h₆, h₇⟩ := placed_append.1 h₅
  rw [he.sizeAll_code] at h₇
  have hpool := pool_right h.pool
  exact ⟨⟨h₁, pool_left h.pool⟩, hiter, ⟨h₄, pool_left hpool⟩, ⟨h₆, pool_right hpool⟩, h₇.1⟩

end Loaded

end Chunk

/-- The code of a program is loaded where it was compiled to. -/
theorem Holds.loaded {a : Assembly} {p : Program} (h : Holds a p) :
    (programChunk p).Loaded a 0 0 Assemble.placeholder where
  placed := h.placed
  pool i v hv := by
    rw [Nat.zero_add, ← Array.getElem?_toList, h.constants]
    exact hv

end TinyScript.Bytecode
