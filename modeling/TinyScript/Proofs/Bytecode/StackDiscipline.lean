import TinyScript.Proofs.Bytecode.Emission
import TinyScript.Proofs.Bytecode.StackEffect
import Mathlib.Data.List.Pairwise

/-!
# Stack discipline

The height of the stack at a place of compiled code is known when the code is: `Chunk.spots` lists it.
`Chunk.Balanced` says that the list is closed under what instructions do, whatever jumps are taken: all
ways to a place come with the same height. It holds for each operation on chunks, hence for every
phrase, and so every machine that runs a compiled program stays on the list of the program
(`OnTrack`).
-/

namespace TinyScript.Bytecode
open Assemble (placeholder)

/-- The instructions with their places, from place `p` on. -/
def listing (p : Nat) : List Instr → List (Nat × Instr)
  | [] => []
  | i :: is => (p, i) :: listing (p + i.size) is

theorem listing_append (p : Nat) (is js : List Instr) :
    listing p (is ++ js) = listing p is ++ listing (p + sizeAll is) js := by
  induction is generalizing p with
  | nil => rfl
  | cons i is ih => simp [listing, ih, Nat.add_assoc]

theorem Placed.instrAt {code : Code} {p pos : Nat} {i : Instr} {is : List Instr}
    (h : Placed code p is) (hi : (pos, i) ∈ listing p is) : InstrAt code pos i := by
  induction is generalizing p with
  | nil => cases hi
  | cons j is ih =>
    rcases List.mem_cons.1 hi with hi | hi
    · cases hi; exact h.1
    · exact ih h.2 hi

theorem mem_of_mem_listing {p pos : Nat} {i : Instr} {is : List Instr} (h : (pos, i) ∈ listing p is) :
    i ∈ is := by
  induction is generalizing p with
  | nil => cases h
  | cons j is ih =>
    rcases List.mem_cons.1 h with h | h
    · cases h; exact List.mem_cons_self
    · exact List.mem_cons_of_mem _ (ih h)

/-! ### Segments -/

/-- An instruction at a spot leaves the lowest `l` values of the stack alone, or the stack is lower than
that after it. -/
def Instr.Keeps (i : Instr) (l : Nat) (s : Nat × Nat) : Prop :=
  l + i.needs ≤ s.2 ∨ ∀ t ∈ i.next s.1 s.2, t.2 < l

/-- At a spot of the code before place `hi` there is an instruction that finds enough values and
constants, keeps the lowest `l` values, and is followed by what is in `T`. If it is the head of a loop, the
spots before the end of the loop keep its iterator. -/
structure Covered (spots : List (Nat × Nat)) (code : List (Nat × Instr)) (hi constants l : Nat)
    (T : Nat × Nat → Prop) (s : Nat × Nat) (i : Instr) : Prop where
  mem : (s.1, i) ∈ code
  needs : i.needs ≤ s.2
  keeps : i.Keeps l s
  const : i.op = .constant → i.operands.headD 0 < constants
  next : ∀ t ∈ i.next s.1 s.2, T t
  loop : i.op = .iterRange → s.1 + 5 < i.operands.getD 1 0 ∧ i.operands.getD 1 0 ≤ hi ∧
    ∀ t ∈ spots, s.1 < t.1 → t.1 < i.operands.getD 1 0 → ∃ j, (t.1, j) ∈ code ∧ j.Keeps s.2 t

/-- The code between places `lo` and `hi` with its spots, which it covers. -/
structure Segment (spots : List (Nat × Nat)) (code : List (Nat × Instr)) (lo hi constants l : Nat)
    (T : Nat × Nat → Prop) : Prop where
  within : ∀ s ∈ spots, lo ≤ s.1 ∧ s.1 < hi
  sorted : spots.Pairwise (·.1 < ·.1)
  covers : ∀ s ∈ spots, ∃ i, Covered spots code hi constants l T s i

namespace Segment
variable {S S' : List (Nat × Nat)} {C C' : List (Nat × Instr)} {lo mid hi n n' l : Nat}
  {T T' : Nat × Nat → Prop}

theorem mono (h : Segment S C lo hi n l T) (hn : n ≤ n') (hT : ∀ t, T t → T' t) :
    Segment S C lo hi n' l T' := by
  refine ⟨h.within, h.sorted, fun s hs => ?_⟩
  obtain ⟨i, hi⟩ := h.covers s hs
  exact ⟨i, { hi with
    const := fun h => Nat.lt_of_lt_of_le (hi.const h) hn
    next := fun t ht => hT t (hi.next t ht) }⟩

theorem append (h : Segment S C lo mid n l T) (h' : Segment S' C' mid hi n l T) (hlo : lo ≤ mid)
    (hhi : mid ≤ hi) : Segment (S ++ S') (C ++ C') lo hi n l T where
  within s hs := by
    rcases List.mem_append.1 hs with hs | hs
    · have := h.within s hs; omega
    · have := h'.within s hs; omega
  sorted := by
    refine List.pairwise_append.2 ⟨h.sorted, h'.sorted, fun s hs t ht => ?_⟩
    have := h.within s hs
    have := h'.within t ht
    omega
  covers s hs := by
    rcases List.mem_append.1 hs with hs | hs
    · obtain ⟨i, hi⟩ := h.covers s hs
      refine ⟨i, { hi with mem := List.mem_append_left _ hi.mem, loop := fun hop => ?_ }⟩
      obtain ⟨hstart, hstop, hloop⟩ := hi.loop hop
      refine ⟨hstart, Nat.le_trans hstop hhi, fun t ht hst hts => ?_⟩
      rcases List.mem_append.1 ht with ht | ht
      · exact (hloop t ht hst hts).imp fun j hj => ⟨List.mem_append_left _ hj.1, hj.2⟩
      · have := h'.within t ht; omega
    · obtain ⟨i, hi⟩ := h'.covers s hs
      refine ⟨i, { hi with mem := List.mem_append_right _ hi.mem, loop := fun hop => ?_ }⟩
      refine ⟨(hi.loop hop).1, (hi.loop hop).2.1, fun t ht hst hts => ?_⟩
      rcases List.mem_append.1 ht with ht | ht
      · have := h.within t ht; have := h'.within s hs; omega
      · exact ((hi.loop hop).2.2 t ht hst hts).imp fun j hj => ⟨List.mem_append_right _ hj.1, hj.2⟩

/-- A place has one height only. -/
theorem height_unique {p h h' : Nat} (hseg : Segment S C lo hi n l T) (hs : (p, h) ∈ S)
    (hs' : (p, h') ∈ S) : h = h' := by
  have : Std.Symm fun s t : Nat × Nat => s.1 ≠ t.1 := ⟨fun _ _ h => h.symm⟩
  have hne : S.Pairwise fun s t => s.1 ≠ t.1 := hseg.sorted.imp fun h => Nat.ne_of_lt h
  by_contra hh
  exact hne.forall hs hs' (by simpa using hh) rfl

theorem nil : Segment [] [] lo hi n l T := ⟨by simp, .nil, by simp⟩

/-- One instruction, of `m` bytes, that is not the head of a loop. -/
theorem single {i : Instr} {p h : Nat} (m : Nat) (hm : i.size = m) (hop : i.op ≠ .iterRange)
    (hneeds : i.needs ≤ h) (hkeeps : i.Keeps l (p, h))
    (hconst : i.op = .constant → i.operands.headD 0 < n) (hnext : ∀ t ∈ i.next p h, T t) :
    Segment [(p, h)] [(p, i)] p (p + m) n l T := by
  refine ⟨?_, List.pairwise_singleton _ _, ?_⟩
  · intro s hs
    rw [List.mem_singleton.1 hs, ← hm]
    exact ⟨Nat.le_refl _, Nat.lt_add_of_pos_right i.size_pos⟩
  · intro s hs
    rw [List.mem_singleton.1 hs]
    exact ⟨i, List.mem_singleton_self _, hneeds, hkeeps, hconst, hnext, fun h => absurd h hop⟩

/-- One more instruction, of `m` bytes, in front. -/
theorem cons {i : Instr} {p h : Nat} (m : Nat) (hm : i.size = m) (hop : i.op ≠ .iterRange)
    (hneeds : l + i.needs ≤ h) (hconst : i.op = .constant → i.operands.headD 0 < n)
    (hnext : ∀ t ∈ i.next p h, T t) (h' : Segment S C (p + m) hi n l T) (hhi : p + m ≤ hi) :
    Segment ((p, h) :: S) ((p, i) :: C) p hi n l T :=
  (single m hm hop (Nat.le_trans (Nat.le_add_left ..) hneeds) (.inl hneeds) hconst hnext).append h'
    (Nat.le_add_right _ _) hhi

/-- The head of a loop in front of its code, which keeps the iterator. -/
theorem cons_iterRange {binds stop p h : Nat} (hneeds : l + 1 ≤ h) (hstart : p + 5 < stop) (hstop : stop ≤ hi)
    (hnext : ∀ t ∈ Instr.next ⟨.iterRange, [binds, stop]⟩ p h, T t) (h' : Segment S C (p + 5) hi n l T)
    (hkeeps : ∀ t ∈ S, ∃ j, (t.1, j) ∈ C ∧ j.Keeps h t) (hhi : p + 5 ≤ hi) :
    Segment ((p, h) :: S) ((p, ⟨.iterRange, [binds, stop]⟩) :: C) p hi n l T where
  within s hs := by
    rcases List.mem_cons.1 hs with rfl | hs
    · exact ⟨Nat.le_refl _, Nat.lt_of_lt_of_le (Nat.lt_add_of_pos_right (by decide)) hhi⟩
    · have := h'.within s hs; omega
  sorted := List.pairwise_cons.2 ⟨fun t ht => Nat.lt_of_lt_of_le (Nat.lt_add_of_pos_right (by decide))
    (h'.within t ht).1, h'.sorted⟩
  covers s hs := by
    rcases List.mem_cons.1 hs with rfl | hs
    · refine ⟨⟨.iterRange, [binds, stop]⟩, List.mem_cons_self, Nat.le_trans (Nat.le_add_left 1 l) hneeds,
        .inl hneeds, by simp, hnext, fun _ => ⟨hstart, hstop, fun t ht hst _ => ?_⟩⟩
      rcases List.mem_cons.1 ht with rfl | ht
      · exact absurd hst (Nat.lt_irrefl _)
      · exact (hkeeps t ht).imp fun j hj => ⟨List.mem_cons_of_mem _ hj.1, hj.2⟩
    · obtain ⟨i, hi⟩ := h'.covers s hs
      refine ⟨i, { hi with mem := List.mem_cons_of_mem _ hi.mem, loop := fun hop => ?_ }⟩
      refine ⟨(hi.loop hop).1, (hi.loop hop).2.1, fun t ht hst hts => ?_⟩
      rcases List.mem_cons.1 ht with rfl | ht
      · have := h'.within s hs; omega
      · exact ((hi.loop hop).2.2 t ht hst hts).imp fun j hj => ⟨List.mem_cons_of_mem _ hj.1, hj.2⟩

end Segment

namespace Chunk
variable {c d e : Chunk} {l h h₁ h' b : Nat}

/-- From height `h` the code of a chunk ends at height `h'`, and goes to the target of `break` at
height `b`, whatever jumps are taken. Until then it keeps the lowest `l` values. -/
structure Balanced (c : Chunk) (l h h' b : Nat) : Prop where
  after : c.after h = h'
  entry : ∀ p, (p, h) ∈ c.spots p h ∨ c.size = 0 ∧ h' = h
  segment : ∀ k p x, Segment (c.spots p h) (listing p (c.code k p x)) p (p + c.size)
    (k + c.pool.length) l
    fun t => t ∈ c.spots p h ∨ t = (p + c.size, h') ∨ t = (x, b) ∧ c.breaks p ≠ []

/-- What comes before a chunk at its height can go on there. -/
theorem Balanced.enter (hc : c.Balanced l h h' b) (p : Nat) :
    (p, h) ∈ c.spots p h ∨ (p, h) = (p + c.size, h') := by
  rcases hc.entry p with h0 | ⟨h0, rfl⟩
  · exact .inl h0
  · exact .inr (by rw [h0]; rfl)

theorem balanced_empty : Balanced .empty l h h b where
  after := rfl
  entry _ := .inr ⟨rfl, rfl⟩
  segment _ _ _ := .nil

theorem balanced_instr {i : Instr} (hop : Exec.goesOn i.op) (hc : i.op ≠ .constant)
    (hn : l + i.pops ≤ h) : Balanced (.instr i) l h (i.heightAfter h) b where
  after := rfl
  entry _ := .inl List.mem_cons_self
  segment k p x := by
    have hiter : i.op ≠ .iterRange := by rintro heq; rw [heq] at hop; cases hop
    refine .cons _ rfl hiter ?_ (fun h => absurd h hc) (fun t ht => .inr (.inl ?_)) .nil (Nat.le_refl _)
    · rw [Instr.needs]; split
      · next heq => rw [heq] at hop; cases hop
      · exact hn
    · rw [Instr.next] at ht
      split at ht
      · next heq => rw [heq] at hop; cases hop
      · next heq => rw [heq] at hop; cases hop
      · next heq => rw [heq] at hop; cases hop
      · exact List.mem_singleton.1 ht

theorem balanced_const (hl : l ≤ h) (v : Cell) : Balanced (.const v) l h (h + 1) b where
  after := rfl
  entry _ := .inl List.mem_cons_self
  segment k p x := by
    refine .cons _ rfl (by simp) hl (fun _ => Nat.lt_succ_self k) (fun t ht => .inr (.inl ?_)) .nil
      (Nat.le_refl _)
    exact List.mem_singleton.1 ht

theorem Balanced.seq (hr : c.Regular) (hc : c.Balanced l h h₁ b) (hd : d.Balanced l h₁ h' b) :
    (c.seq d).Balanced l h h' b where
  after := by simp only [Chunk.seq, hc.after, hd.after]
  entry p := by
    simp only [Chunk.seq, List.mem_append, hc.after]
    rcases hc.entry p with h0 | ⟨h0, rfl⟩
    · exact .inl (.inl h0)
    · rw [h0]
      rcases hd.entry p with h1 | ⟨h1, rfl⟩
      · exact .inl (.inr h1)
      · exact .inr ⟨by omega, rfl⟩
  segment k p x := by
    simp only [Chunk.seq, listing_append, hr.sizeAll_code, hc.after, List.length_append,
      ← Nat.add_assoc]
    refine ((hc.segment k p x).mono (by omega) ?_).append ((hd.segment _ _ x).mono (by omega) ?_)
      (by omega) (by omega)
    · rintro t (ht | rfl | ⟨rfl, ht⟩)
      · exact .inl (List.mem_append_left _ ht)
      · rcases hd.enter (p + c.size) with h1 | h1
        · exact .inl (List.mem_append_right _ h1)
        · exact .inr (.inl h1)
      · exact .inr (.inr ⟨rfl, by simp [ht]⟩)
    · rintro t (ht | rfl | ⟨rfl, ht⟩)
      · exact .inl (List.mem_append_right _ ht)
      · exact .inr (.inl rfl)
      · exact .inr (.inr ⟨rfl, by simp [ht]⟩)

/-- A chunk that pushes a value is not empty. -/
theorem Balanced.enter_succ (hc : c.Balanced l h (h + 1) b) (p : Nat) : (p, h) ∈ c.spots p h := by
  rcases hc.entry p with h0 | ⟨-, h0⟩
  · exact h0
  · omega

/-- What can follow after a jump on a condition. -/
theorem mem_next_jumpNotTruthy {p n : Nat} {t : Nat × Nat}
    (ht : t ∈ Instr.next ⟨.jumpNotTruthy, [n]⟩ p (h + 1)) : t = (p + 3, h) ∨ t = (n, h) := by
  simpa [Instr.next] using ht

theorem mem_next_jump {p n : Nat} {t : Nat × Nat} (ht : t ∈ Instr.next ⟨.jump, [n]⟩ p h) :
    t = (n, h) := by
  simpa [Instr.next] using ht

theorem Balanced.andAlso (hl : l ≤ h) (hc : c.Balanced l h (h + 1) b) (hr : c.Closed) (hr' : d.Closed)
    (hd : d.Balanced l h (h + 1) b) : (c.andAlso d).Balanced l h (h + 1) b where
  after := rfl
  entry p := .inl (List.mem_append_left _ (hc.enter_succ p))
  segment k p x := by
    simp only [Chunk.andAlso, listing_append, listing, hr.sizeAll_code, hr'.sizeAll_code,
      List.length_append, ← Nat.add_assoc, Instr.size, Opcode.size, Opcode.arity]
    have hd0 := hd.enter_succ (p + c.size + 3)
    refine ((hc.segment k p x).mono (by omega) ?_).append (.cons 3 rfl (by simp) (Nat.succ_le_succ hl) (by simp) ?_
      (((hd.segment _ _ x).mono (by omega) ?_).append (.cons 3 rfl (by simp) hl.step (by simp) ?_
        (.cons 1 rfl (by simp) hl (by simp) ?_ .nil (Nat.le_refl _)) (by omega))
        (Nat.le_add_right ..) (by omega)) (by omega)) (by omega) (by omega)
    · rintro t (ht | rfl | ⟨-, ht⟩)
      · simp [ht]
      · simp
      · exact absurd (hr.breaks_eq p) ht
    · intro t ht
      rcases mem_next_jumpNotTruthy ht with rfl | rfl
      · simp [hd0]
      · simp
    · rintro t (ht | rfl | ⟨-, ht⟩)
      · simp [ht]
      · simp
      · exact absurd (hr'.breaks_eq _) ht
    · intro t ht
      simp [mem_next_jump ht]
    · intro t ht
      rw [List.mem_singleton.1 ht]
      exact .inr (.inl rfl)

theorem Balanced.orElse (hl : l ≤ h) (hc : c.Balanced l h (h + 1) b) (hr : c.Closed) (hr' : d.Closed)
    (hd : d.Balanced l h (h + 1) b) : (c.orElse d).Balanced l h (h + 1) b where
  after := rfl
  entry p := .inl (List.mem_append_left _ (hc.enter_succ p))
  segment k p x := by
    simp only [Chunk.orElse, listing_append, listing, hr.sizeAll_code, List.length_append,
      ← Nat.add_assoc, Instr.size, Opcode.size, Opcode.arity]
    have hd0 := hd.enter_succ (p + c.size + 7)
    refine ((hc.segment k p x).mono (by omega) ?_).append (.cons 3 rfl (by simp) (Nat.succ_le_succ hl) (by simp) ?_
      (.cons 1 rfl (by simp) hl (by simp) ?_ (.cons 3 rfl (by simp) hl.step (by simp) ?_
        ((hd.segment _ _ x).mono (by omega) ?_) (Nat.le_add_right ..)) (by omega)) (by omega))
        (by omega) (by omega)
    · rintro t (ht | rfl | ⟨-, ht⟩)
      · simp [ht]
      · simp
      · exact absurd (hr.breaks_eq p) ht
    · intro t ht
      rcases mem_next_jumpNotTruthy ht with rfl | rfl
      · simp
      · simp [hd0]
    · intro t ht
      rw [List.mem_singleton.1 ht]
      simp [Instr.heightAfter, Instr.pops, Instr.pushes, Instr.size, Opcode.size, Opcode.arity]
    · intro t ht
      simp [mem_next_jump ht]
    · rintro t (ht | rfl | ⟨-, ht⟩)
      · simp [ht]
      · simp
      · exact absurd (hr'.breaks_eq _) ht

theorem Balanced.arm (hl : l ≤ h) (hr : c.Closed) (hr' : d.Regular) (hc : c.Balanced l h (h + 1) b)
    (hd : d.Balanced l h h b) (he : e.Balanced l h h b) : (c.arm d e).Balanced l h h b where
  after := rfl
  entry p := .inl (List.mem_append_left _ (hc.enter_succ p))
  segment k p x := by
    simp only [Chunk.arm, listing_append, listing, hr.sizeAll_code, hr'.sizeAll_code,
      List.length_append, ← Nat.add_assoc, Instr.size, Opcode.size, Opcode.arity]
    refine ((hc.segment k p x).mono (by omega) ?_).append (.cons 3 rfl (by simp) (Nat.succ_le_succ hl) (by simp) ?_
      (((hd.segment _ _ x).mono (by omega) ?_).append (.cons 3 rfl (by simp) hl (by simp) ?_
        ((he.segment _ _ x).mono (by omega) ?_) (Nat.le_add_right ..)) (Nat.le_add_right ..)
        (by omega)) (by omega)) (by omega) (by omega)
    · rintro t (ht | rfl | ⟨-, ht⟩)
      · simp [ht]
      · simp
      · exact absurd (hr.breaks_eq p) ht
    · intro t ht
      rcases mem_next_jumpNotTruthy ht with rfl | rfl
      · rcases hd.enter (p + c.size + 3) with h0 | h0
        · simp [h0]
        · rw [h0]; simp
      · rcases he.enter (p + c.size + 3 + d.size + 3) with h0 | h0
        · simp [h0]
        · rw [h0]; simp
    · rintro t (ht | rfl | ⟨rfl, ht⟩)
      · simp [ht]
      · simp
      · exact .inr (.inr ⟨rfl, by simp [ht]⟩)
    · intro t ht
      simp [mem_next_jump ht]
    · rintro t (ht | rfl | ⟨rfl, ht⟩)
      · simp [ht]
      · simp
      · exact .inr (.inr ⟨rfl, by simp [ht]⟩)

theorem Balanced.loop (hl : l ≤ h) (hr : c.Closed) (hr' : d.Regular) (hc : c.Balanced l h (h + 1) b)
    (hd : d.Balanced l h h h) : (c.loop d).Balanced l h h b where
  after := rfl
  entry p := .inl (List.mem_append_left _ (hc.enter_succ p))
  segment k p x := by
    simp only [Chunk.loop, listing_append, listing, hr.sizeAll_code, hr'.sizeAll_code,
      List.length_append, ← Nat.add_assoc, Instr.size, Opcode.size, Opcode.arity]
    refine ((hc.segment k p _).mono (by omega) ?_).append (.cons 3 rfl (by simp) (Nat.succ_le_succ hl) (by simp) ?_
      (((hd.segment _ _ _).mono (by omega) ?_).append (.cons 3 rfl (by simp) hl (by simp) ?_
        .nil (Nat.le_refl _)) (Nat.le_add_right ..) (by omega)) (by omega)) (by omega) (by omega)
    · rintro t (ht | rfl | ⟨-, ht⟩)
      · simp [ht]
      · simp
      · exact absurd (hr.breaks_eq p) ht
    · intro t ht
      rcases mem_next_jumpNotTruthy ht with rfl | rfl
      · rcases hd.enter (p + c.size + 3) with h0 | h0
        · simp [h0]
        · rw [h0]; simp
      · exact .inr (.inl rfl)
    · -- a `break` of the body goes to the end of the loop
      rintro t (ht | rfl | ⟨rfl, -⟩)
      · simp [ht]
      · simp
      · exact .inr (.inl rfl)
    · intro t ht
      rw [mem_next_jump ht]
      exact .inl (List.mem_append_left _ (hc.enter_succ p))

theorem Balanced.each {binds : Bool} (hl : l ≤ h) (hr : c.Closed) (hr' : d.Closed) (hr'' : e.Regular)
    (hc : c.Balanced l h (h + 1) b) (hd : ∀ m ≤ h + 1, d.Balanced m (h + 1 + binds.toNat) (h + 1) b)
    (he : ∀ m ≤ h + 1, e.Balanced m (h + 1) (h + 1) h) : (c.each binds d e).Balanced l h h b where
  after := rfl
  entry p := .inl (List.mem_append_left _ (hc.enter_succ p))
  segment k p x := by
    simp only [Chunk.each, listing_append, listing, hr.sizeAll_code, hr'.sizeAll_code,
      hr''.sizeAll_code, List.length_append, ← Nat.add_assoc, Instr.size, Opcode.size, Opcode.arity]
    have hd₀ := hd l hl.step
    have he₀ := he l hl.step
    refine ((hc.segment k p _).mono (by omega) ?_).append (.cons_iterRange (Nat.succ_le_succ hl)
      (by omega) (by omega) ?_ (((hd₀.segment _ _ _).mono (by omega) ?_).append
        (((he₀.segment _ _ _).mono (by omega) ?_).append (.cons 3 rfl (by simp) hl.step (by simp) ?_ .nil
        (Nat.le_refl _)) (Nat.le_add_right ..) (by omega)) (by omega) (by omega)) ?_ (by omega)) (by omega)
        (by omega)
    · rintro t (ht | rfl | ⟨-, ht⟩)
      · simp [ht]
      · simp
      · exact absurd (hr.breaks_eq p) ht
    · intro t ht
      have ht : t = (p + c.size + 5, h + 1 + binds.toNat) ∨
          t = (p + c.size + 5 + d.size + e.size + 3, h) := by
        cases binds <;> simpa [Instr.next, Instr.heightAfter, Instr.pops, Instr.pushes] using ht
      rcases ht with rfl | rfl
      · rcases hd₀.enter (p + c.size + 5) with h0 | h0
        · simp [h0]
        · rw [h0]
          rcases he₀.enter (p + c.size + 5 + d.size) with h1 | h1
          · simp [h1]
          · rw [h1]; simp
      · exact .inr (.inl rfl)
    · rintro t (ht | rfl | ⟨-, ht⟩)
      · simp [ht]
      · rcases he₀.enter (p + c.size + 5 + d.size) with h0 | h0
        · simp [h0]
        · rw [h0]; simp
      · exact absurd (hr'.breaks_eq _) ht
    · rintro t (ht | rfl | ⟨rfl, -⟩)
      · simp [ht]
      · simp
      · exact .inr (.inl rfl)
    · intro t ht
      rw [mem_next_jump ht]
      simp
    · -- below the iterator nothing changes, and the iterator itself stays until a `break`
      intro t ht
      rcases List.mem_append.1 ht with ht | ht
      · exact (((hd _ (Nat.le_refl _)).segment _ _ _).covers t ht).imp fun j hj =>
          ⟨List.mem_append_left _ hj.mem, hj.keeps⟩
      rcases List.mem_append.1 ht with ht | ht
      · exact (((he _ (Nat.le_refl _)).segment _ _ _).covers t ht).imp fun j hj =>
          ⟨List.mem_append_right _ (List.mem_append_left _ hj.mem), hj.keeps⟩
      · rw [List.mem_singleton.1 ht]
        exact ⟨_, List.mem_append_right _ (List.mem_append_right _ (List.mem_singleton_self _)),
          .inl (Nat.le_refl _)⟩

theorem balanced_brk {it : Bool} (hl : l ≤ h) (hit : it.toNat ≤ h) : Balanced (.brk it) l h h (h - it.toNat) where
  after := rfl
  entry p := by cases it <;> exact .inl List.mem_cons_self
  segment k p x := by
    cases it with
    | false =>
      refine .cons 3 rfl (by simp) hl (by simp) (fun t ht => ?_) .nil (Nat.le_refl _)
      exact .inr (.inr ⟨mem_next_jump ht, by simp [Chunk.brk]⟩)
    | true =>
      have hdrop : Instr.Keeps ⟨.drop, [1]⟩ l (p, h) := by
        rcases Nat.lt_or_ge l h with hlt | hge
        · exact .inl hlt
        · refine .inr fun t ht => ?_
          rw [List.mem_singleton.1 ht]
          exact Nat.lt_of_lt_of_le (Nat.sub_lt hit Nat.one_pos) hge
      have hjump : Instr.Keeps ⟨.jump, [x]⟩ l (p + 3, h - 1) := by
        rcases Nat.lt_or_ge l h with hlt | hge
        · exact .inl (Nat.le_sub_one_of_lt hlt)
        · refine .inr fun t ht => ?_
          rw [mem_next_jump ht]
          exact Nat.lt_of_lt_of_le (Nat.sub_lt hit Nat.one_pos) hge
      refine (Segment.single 3 rfl (by simp) hit hdrop (by simp) fun t ht => ?_).append
        (Segment.single 3 rfl (by simp) (Nat.zero_le _) hjump (by simp) fun t ht => ?_)
        (Nat.le_add_right ..) (Nat.add_le_add_left (by decide) p)
      · rw [List.mem_singleton.1 ht]
        exact .inl (List.mem_cons_of_mem _ List.mem_cons_self)
      · exact .inr (.inr ⟨mem_next_jump ht, by simp [Chunk.brk]⟩)

end Chunk

/-! ### Phrases -/

section
variable {l h b : Nat}

/-- An instruction that replaces `n` values by one. -/
theorem balanced_push {i : Instr} (hl : l ≤ h) (hop : Exec.goesOn i.op) (hc : i.op ≠ .constant) (n : Nat)
    (hpops : i.pops = n) (hpushes : i.pushes = 1) : Chunk.Balanced (.instr i) l (h + n) (h + 1) b := by
  have := Chunk.balanced_instr (l := l) (h := h + n) (b := b) hop hc (by omega)
  rwa [Instr.heightAfter, hpops, hpushes, Nat.add_sub_cancel] at this

theorem balanced_operator (hl : l ≤ h) (op : BinaryOp) (k : Kind) :
    Chunk.Balanced (.instr ⟨(opcodeOf? op k).getD .equal, []⟩) l (h + 2) (h + 1) b := by
  cases op <;> cases k <;> exact balanced_push hl rfl (by simp [opcodeOf?]) 2 rfl rfl

mutual

theorem balanced_exprChunk (sy : Symbols) {h : Nat} (hl : l ≤ h) (b : Nat) :
    (e : Expr) → (exprChunk sy e).Balanced l h (h + 1) b
  | .num .. | .str .. => by rw [exprChunk]; exact Chunk.balanced_const hl _
  | .bool _ v => by rw [exprChunk]; cases v <;> exact balanced_push hl rfl (by simp) 0 rfl rfl
  | .var .. | .call .. | .assert .. => by
    rw [exprChunk]; exact balanced_push hl rfl (by simp) 0 rfl rfl
  | .array _ _ es => by
    rw [exprChunk]
    exact .seq (closed_listChunk sy es).regular (balanced_listChunk sy hl b es)
      (balanced_push hl rfl (by simp) es.length rfl rfl)
  | .map _ _ ps => by
    rw [exprChunk]
    exact .seq (closed_pairsChunk sy ps).regular (balanced_pairsChunk sy hl b ps)
      (balanced_push hl rfl (by simp) (ps.length * 2) rfl rfl)
  | .unary _ op e => by
    rw [exprChunk]
    refine .seq (closed_exprChunk sy e).regular (balanced_exprChunk sy hl b e) ?_
    cases op <;> exact balanced_push hl rfl (by simp [opcodeOfUnary]) 1 rfl rfl
  | .binary m op t l r => by
    have hx := balanced_exprChunk sy hl b l
    have cl := closed_exprChunk sy l
    have cr := closed_exprChunk sy r
    by_cases h1 : op = .and
    · subst h1; rw [exprChunk]; exact hx.andAlso hl cl cr (balanced_exprChunk sy hl b r)
    by_cases h2 : op = .or
    · subst h2; rw [exprChunk]; exact hx.orElse hl cl cr (balanced_exprChunk sy hl b r)
    rw [exprChunk_binary h1 h2]
    exact .seq (cl.seq cr).regular (.seq cl.regular hx (balanced_exprChunk sy hl.step b r))
      (balanced_operator hl op _)
  | .index _ l k => by
    rw [exprChunk]
    exact .seq ((closed_exprChunk sy l).seq (closed_exprChunk sy k)).regular
      (.seq (closed_exprChunk sy l).regular (balanced_exprChunk sy hl b l)
        (balanced_exprChunk sy hl.step b k)) (balanced_push hl rfl (by simp) 2 rfl rfl)
  | .slice _ l x y => by
    rw [exprChunk]
    exact .seq (((closed_exprChunk sy l).seq (closed_optionChunk sy x)).seq
        (closed_optionChunk sy y)).regular
      (.seq ((closed_exprChunk sy l).seq (closed_optionChunk sy x)).regular
        (.seq (closed_exprChunk sy l).regular (balanced_exprChunk sy hl b l)
          (balanced_optionChunk sy hl.step b x)) (balanced_optionChunk sy hl.step.step b y))
      (balanced_push hl rfl (by simp) 3 rfl rfl)
  | .dot _ l _ => by
    rw [exprChunk]
    exact .seq ((closed_exprChunk sy l).seq (Chunk.closed_const _)).regular
      (.seq (closed_exprChunk sy l).regular (balanced_exprChunk sy hl b l)
        (Chunk.balanced_const hl.step _)) (balanced_push hl rfl (by simp) 2 rfl rfl)
  | .group _ e | .any _ e => by rw [exprChunk]; exact balanced_exprChunk sy hl b e

theorem balanced_listChunk (sy : Symbols) {h : Nat} (hl : l ≤ h) (b : Nat) :
    (es : List Expr) → (listChunk sy es).Balanced l h (h + es.length) b
  | [] => by rw [listChunk]; exact Chunk.balanced_empty
  | e :: es => by
    rw [listChunk, List.length_cons, Nat.add_comm es.length, ← Nat.add_assoc]
    exact .seq (closed_exprChunk sy e).regular (balanced_exprChunk sy hl b e)
      (balanced_listChunk sy hl.step b es)

theorem balanced_pairsChunk (sy : Symbols) {h : Nat} (hl : l ≤ h) (b : Nat) :
    (ps : List (String × Expr)) → (pairsChunk sy ps).Balanced l h (h + ps.length * 2) b
  | [] => by rw [pairsChunk]; exact Chunk.balanced_empty
  | (key, e) :: ps => by
    have hlen : h + ((key, e) :: ps).length * 2 = h + 2 + ps.length * 2 := by
      rw [List.length_cons]; omega
    rw [pairsChunk, hlen]
    exact .seq ((Chunk.closed_const _).seq (closed_exprChunk sy e)).regular
      (.seq (Chunk.closed_const _).regular (Chunk.balanced_const hl _)
        (balanced_exprChunk sy hl.step b e)) (balanced_pairsChunk sy hl.step.step b ps)

theorem balanced_optionChunk (sy : Symbols) {h : Nat} (hl : l ≤ h) (b : Nat) :
    (e : Option Expr) → (optionChunk sy e).Balanced l h (h + 1) b
  | some e => by rw [optionChunk]; exact balanced_exprChunk sy hl b e
  | none => by rw [optionChunk]; exact balanced_push hl rfl (by simp) 0 rfl rfl

end

/-- An instruction that takes `n` values. -/
theorem balanced_take {i : Instr} (hl : l ≤ h) (hop : Exec.goesOn i.op) (hc : i.op ≠ .constant) (n : Nat)
    (hpops : i.pops = n) (hpushes : i.pushes = 0) : Chunk.Balanced (.instr i) l (h + n) h b := by
  have := Chunk.balanced_instr (l := l) (h := h + n) (b := b) hop hc (by omega)
  rwa [Instr.heightAfter, hpops, hpushes, Nat.add_sub_cancel] at this

theorem balanced_declChunk (hl : l ≤ h) (sy : Symbols) (var : Var) (value : Expr) :
    (declChunk sy var value).Balanced l h h b :=
  .seq (closed_exprChunk sy value).regular (balanced_exprChunk sy hl b value)
    (balanced_take hl rfl (by simp) 1 rfl rfl)

theorem balanced_assignChunk (hl : l ≤ h) (sy : Symbols) (target value : Expr) :
    (assignChunk sy target value).Balanced l h h b := by
  refine .seq (closed_exprChunk sy value).regular (balanced_exprChunk sy hl b value) ?_
  split
  · exact balanced_take hl rfl (by simp) 1 rfl rfl
  · next left key =>
    exact .seq ((closed_exprChunk sy left).seq (closed_exprChunk sy key)).regular
      (.seq (closed_exprChunk sy left).regular (balanced_exprChunk sy hl.step b left)
        (balanced_exprChunk sy hl.step.step b key)) (balanced_take hl rfl (by simp) 3 rfl rfl)
  · next left key =>
    exact .seq ((closed_exprChunk sy left).seq (Chunk.closed_const _)).regular
      (.seq (closed_exprChunk sy left).regular (balanced_exprChunk sy hl.step b left)
        (Chunk.balanced_const hl.step.step _)) (balanced_take hl rfl (by simp) 3 rfl rfl)
  · exact balanced_take hl rfl (by simp) 1 rfl rfl

theorem balanced_rangeChunk (hl : l ≤ h) (sy : Symbols) :
    (range : Range) → (rangeChunk sy range).Balanced l h (h + 1) b
  | .step start stop stride =>
    .seq (((closed_optionChunk sy start).seq (closed_exprChunk sy stop)).seq
        (closed_optionChunk sy stride)).regular
      (.seq ((closed_optionChunk sy start).seq (closed_exprChunk sy stop)).regular
        (.seq (closed_optionChunk sy start).regular (balanced_optionChunk sy hl b start)
          (balanced_exprChunk sy hl.step b stop)) (balanced_optionChunk sy hl.step.step b stride))
      (balanced_push hl rfl (by simp) 3 rfl rfl)
  | .over e => balanced_exprChunk sy hl b e

theorem balanced_bindChunk (hl : l ≤ h + 1) (sy : Symbols) : (var : Option Var) →
    (bindChunk sy var).Balanced l (h + 1 + var.isSome.toNat) (h + 1) b
  | some _ => balanced_take hl rfl (by simp) 1 rfl rfl
  | none => Chunk.balanced_empty

mutual

/-- A statement leaves the stack as it was; a `break` in it has dropped the iterator of its loop. -/
theorem balanced_stmtChunk (sy : Symbols) (it : Bool) {l h : Nat} (hl : l ≤ h) (hit : it.toNat ≤ h) :
    (s : Stmt) → (stmtChunk sy it s).Balanced l h h (h - it.toNat)
  | .empty .. | .call .. | .ret .. | .func .. | .on .. => by
    rw [stmtChunk]; exact Chunk.balanced_empty
  | .typedDecl .. | .inferredDecl .. => by rw [stmtChunk]; exact balanced_declChunk hl sy _ _
  | .assign .. => by rw [stmtChunk]; exact balanced_assignChunk hl sy _ _
  | .cond _ _ (.mk _ _ test body) more otherwise => by
    rw [stmtChunk]
    exact .arm hl (closed_exprChunk sy test) (regular_blockChunk sy it body)
      (balanced_exprChunk sy hl _ test) (balanced_blockChunk sy it hl hit body)
      (balanced_branchesChunk _ it hl hit more (balanced_lastChunk _ it hl hit otherwise))
  | .loop _ (.mk _ _ test body) => by
    rw [stmtChunk]
    exact .loop hl (closed_exprChunk sy test) (regular_blockChunk sy false body)
      (balanced_exprChunk sy hl _ test) (balanced_blockChunk sy false hl (Nat.zero_le _) body)
  | .each _ _ var range body => by
    rw [stmtChunk]
    exact .each hl (closed_rangeChunk sy range) (closed_bindChunk _ var) (regular_blockChunk _ true body)
      (balanced_rangeChunk hl sy range) (fun _ hm => balanced_bindChunk hm _ var)
      (fun _ hm => balanced_blockChunk _ true hm (Nat.le_add_left ..) body)
  | .brk .. => by rw [stmtChunk]; exact Chunk.balanced_brk hl hit

theorem balanced_branchesChunk (sy : Symbols) (it : Bool) {l h : Nat} (hl : l ≤ h) (hit : it.toNat ≤ h)
    {last : Chunk} : (bs : List Branch) → last.Balanced l h h (h - it.toNat) →
      (branchesChunk sy it bs last).Balanced l h h (h - it.toNat)
  | [], hlast => by rw [branchesChunk]; exact hlast
  | .mk _ _ test body :: more, hlast => by
    rw [branchesChunk]
    exact .arm hl (closed_exprChunk sy test) (regular_blockChunk sy it body)
      (balanced_exprChunk sy hl _ test) (balanced_blockChunk sy it hl hit body)
      (balanced_branchesChunk _ it hl hit more hlast)

theorem balanced_lastChunk (sy : Symbols) (it : Bool) {l h : Nat} (hl : l ≤ h) (hit : it.toNat ≤ h) :
    (b : Option Block) → (lastChunk sy it b).Balanced l h h (h - it.toNat)
  | none => by rw [lastChunk]; exact Chunk.balanced_empty
  | some b => by rw [lastChunk]; exact balanced_blockChunk sy it hl hit b

theorem balanced_blockChunk (sy : Symbols) (it : Bool) {l h : Nat} (hl : l ≤ h) (hit : it.toNat ≤ h) :
    (b : Block) → (blockChunk sy it b).Balanced l h h (h - it.toNat)
  | .mk _ _ stmts => by rw [blockChunk]; exact balanced_stmtsChunk sy.nest it hl hit stmts

theorem balanced_stmtsChunk (sy : Symbols) (it : Bool) {l h : Nat} (hl : l ≤ h) (hit : it.toNat ≤ h) :
    (ss : List Stmt) → (stmtsChunk sy it ss).Balanced l h h (h - it.toNat)
  | [] => by rw [stmtsChunk]; exact Chunk.balanced_empty
  | s :: ss => by
    rw [stmtsChunk]
    exact .seq (regular_stmtChunk sy it s) (balanced_stmtChunk sy it hl hit s)
      (balanced_stmtsChunk _ it hl hit ss)

end

end

/-! ### Where statements start -/

mutual

/-- The places at which the statements inside a statement at place `p` start, each with the number of
`for` loops around it, of which there are `depth` around the outer statement. -/
def innerStarts (sy : Symbols) (it : Bool) (p depth : Nat) : Stmt → List (Nat × Nat)
  | .cond _ _ (.mk _ _ test body) more otherwise =>
    let q := p + (exprChunk sy test).size + 3
    blockStarts sy it q depth body ++ branchesStarts (blockSymbols sy body) it depth more
      (lastStarts (branchesSymbols (blockSymbols sy body) more) it depth otherwise)
      (q + (blockChunk sy it body).size + 3)
  | .loop _ (.mk _ _ test body) => blockStarts sy false (p + (exprChunk sy test).size + 3) depth body
  | .each _ _ var range body =>
    blockStarts (loopSymbols sy var) true
      (p + (rangeChunk sy range).size + 5 + (bindChunk sy.nest var).size) (depth + 1) body
  | _ => []

def branchesStarts (sy : Symbols) (it : Bool) (depth : Nat) :
    List Branch → (last : Nat → List (Nat × Nat)) → (p : Nat) → List (Nat × Nat)
  | [], last, p => last p
  | .mk _ _ test body :: more, last, p =>
    let q := p + (exprChunk sy test).size + 3
    blockStarts sy it q depth body ++
      branchesStarts (blockSymbols sy body) it depth more last (q + (blockChunk sy it body).size + 3)

def lastStarts (sy : Symbols) (it : Bool) (depth : Nat) : Option Block → (p : Nat) → List (Nat × Nat)
  | none, _ => []
  | some block, p => blockStarts sy it p depth block

def blockStarts (sy : Symbols) (it : Bool) (p depth : Nat) : Block → List (Nat × Nat)
  | .mk _ _ stmts => stmtsStarts sy.nest it p depth stmts

/-- The places at which statements start; those without any code have no place. -/
def stmtsStarts (sy : Symbols) (it : Bool) (p depth : Nat) : List Stmt → List (Nat × Nat)
  | [] => []
  | s :: ss =>
    (if (stmtChunk sy it s).size = 0 then [] else [(p, depth)]) ++ innerStarts sy it p depth s ++
      stmtsStarts (stmtSymbols sy s) it (p + (stmtChunk sy it s).size) depth ss

end

/-- The places at which the statements of a program start, each with the number of `for` loops around
it. -/
def programStarts (p : Program) : List (Nat × Nat) :=
  stmtsStarts {} false 0 0 p.stmts

mutual

theorem innerStarts_subset (sy : Symbols) (it : Bool) (p h : Nat) (hit : it.toNat ≤ h) :
    (s : Stmt) → innerStarts sy it p h s ⊆ (stmtChunk sy it s).spots p h
  | .cond _ _ (.mk _ _ test body) more otherwise => by
    rw [innerStarts, stmtChunk]
    refine List.append_subset.2 ⟨fun t ht => ?_, fun t ht => ?_⟩
    · have := blockStarts_subset sy it _ h hit body ht
      simp [Chunk.arm, this]
    · have := branchesStarts_subset _ it h hit more
        (fun p => lastStarts_subset _ it h hit otherwise p) _ ht
      simp [Chunk.arm, this]
  | .loop _ (.mk _ _ test body) => by
    rw [innerStarts, stmtChunk]
    intro t ht
    have := blockStarts_subset sy false _ h (Nat.zero_le _) body ht
    simp [Chunk.loop, this]
  | .each _ _ var range body => by
    rw [innerStarts, stmtChunk]
    intro t ht
    have := blockStarts_subset _ true _ (h + 1) (Nat.le_add_left ..) body ht
    simp [Chunk.each, this]
  | .empty .. | .typedDecl .. | .inferredDecl .. | .assign .. | .call .. | .ret .. | .brk ..
  | .func .. | .on .. => by simp [innerStarts]

theorem branchesStarts_subset (sy : Symbols) (it : Bool) (h : Nat) (hit : it.toNat ≤ h)
    {last : Nat → List (Nat × Nat)} {c : Chunk} : (bs : List Branch) →
      (∀ p, last p ⊆ c.spots p h) → ∀ p, branchesStarts sy it h bs last p ⊆
        (branchesChunk sy it bs c).spots p h
  | [], hl, p => by rw [branchesStarts, branchesChunk]; exact hl p
  | .mk _ _ test body :: more, hl, p => by
    rw [branchesStarts, branchesChunk]
    refine List.append_subset.2 ⟨fun t ht => ?_, fun t ht => ?_⟩
    · have := blockStarts_subset sy it _ h hit body ht
      simp [Chunk.arm, this]
    · have := branchesStarts_subset _ it h hit more hl _ ht
      simp [Chunk.arm, this]

theorem lastStarts_subset (sy : Symbols) (it : Bool) (h : Nat) (hit : it.toNat ≤ h) :
    (b : Option Block) → ∀ p, lastStarts sy it h b p ⊆ (lastChunk sy it b).spots p h
  | none, _ => by rw [lastStarts]; exact List.nil_subset _
  | some b, p => by rw [lastStarts, lastChunk]; exact blockStarts_subset sy it p h hit b

theorem blockStarts_subset (sy : Symbols) (it : Bool) (p h : Nat) (hit : it.toNat ≤ h) :
    (b : Block) → blockStarts sy it p h b ⊆ (blockChunk sy it b).spots p h
  | .mk _ _ stmts => by rw [blockStarts, blockChunk]; exact stmtsStarts_subset sy.nest it p h hit stmts

theorem stmtsStarts_subset (sy : Symbols) (it : Bool) (p h : Nat) (hit : it.toNat ≤ h) :
    (ss : List Stmt) → stmtsStarts sy it p h ss ⊆ (stmtsChunk sy it ss).spots p h
  | [] => by rw [stmtsStarts]; exact List.nil_subset _
  | s :: ss => by
    have hs := balanced_stmtChunk sy it (Nat.zero_le h) hit s
    rw [stmtsStarts, stmtsChunk]
    refine List.append_subset.2 ⟨List.append_subset.2 ⟨?_, ?_⟩, ?_⟩
    · split
      · exact List.nil_subset _
      · next hne =>
        rcases hs.entry p with h0 | ⟨h0, -⟩
        · intro t ht
          rw [List.mem_singleton.1 ht]
          exact List.mem_append_left _ h0
        · exact absurd h0 hne
    · exact fun t ht => List.mem_append_left _ (innerStarts_subset sy it p h hit s ht)
    · intro t ht
      refine List.mem_append_right _ ?_
      rw [hs.after]
      exact stmtsStarts_subset _ it _ h hit ss ht

end

/-! ### Runs -/

/-- A machine with the code of an assembly, before its first step. -/
def Vm.load (a : Assembly) : Vm where
  code := a.code
  constants := a.constants

/-- A machine runs the code of a program, and is at one of the spots of the program or at its end. -/
structure OnTrack (a : Assembly) (p : Program) (vm : Vm) : Prop where
  code : vm.code = a.code
  constants : vm.constants = a.constants
  globals : vm.globals.size = globalsSize
  spot : (vm.ip, vm.sp) ∈ (programChunk p).spots 0 0 ∨ (vm.ip, vm.sp) = (a.code.size, 0)

section
variable {a : Assembly} {p : Program} {vm : Vm}

theorem balanced_programChunk (p : Program) : (programChunk p).Balanced 0 0 0 0 :=
  balanced_stmtsChunk {} false (Nat.le_refl _) (Nat.le_refl _) p.stmts

theorem onTrack_load (h : Holds a p) : OnTrack a p (.load a) := by
  refine ⟨rfl, rfl, Array.size_replicate, ?_⟩
  rw [h.size_code]
  rcases (balanced_programChunk p).enter 0 with h0 | h0
  · exact .inl h0
  · exact .inr (h0.trans (by rw [Nat.zero_add]))

/-- The end of the code has no instruction, so a machine there is not at a spot. -/
theorem OnTrack.sp_of_end (hp : Holds a p) (h : OnTrack a p vm) (hend : vm.fetch? = none) :
    vm.sp = 0 := by
  rcases h.spot with hs | hs
  · have hlt := ((balanced_programChunk p).segment 0 0 placeholder).within _ hs
    have : a.code.size ≤ vm.ip := by
      rw [← h.code]
      simpa [Vm.fetch?] using hend
    rw [hp.size_code] at this
    simp at hlt
    omega
  · exact (Prod.mk.inj hs).2

/-- A machine that is on track before its end is at a spot, where an instruction finds what it needs. -/
theorem OnTrack.covered (hp : Holds a p) (h : OnTrack a p vm) {byte : UInt8}
    (hb : vm.fetch? = some byte) : (vm.ip, vm.sp) ∈ (programChunk p).spots 0 0 ∧
      ∃ i, InstrAt vm.code vm.ip i ∧ i.Denotes vm.constants.size vm.globals.size ∧
        Covered ((programChunk p).spots 0 0) (listing 0 ((programChunk p).code 0 0 placeholder))
          (0 + (programChunk p).size) (0 + (programChunk p).pool.length) 0
          (fun t => t ∈ (programChunk p).spots 0 0 ∨ t = (0 + (programChunk p).size, 0) ∨
            t = (placeholder, 0) ∧ (programChunk p).breaks 0 ≠ []) (vm.ip, vm.sp) i := by
  have hspot : (vm.ip, vm.sp) ∈ (programChunk p).spots 0 0 := by
    rcases h.spot with hs | hs
    · exact hs
    · rw [Vm.fetch?, h.code, (Prod.mk.inj hs).1] at hb
      simp at hb
  obtain ⟨i, hi⟩ := ((balanced_programChunk p).segment 0 0 placeholder).covers _ hspot
  have hfits := hp.fits i (mem_of_mem_listing hi.mem)
  refine ⟨hspot, i, h.code ▸ hp.placed.instrAt hi.mem, ?_, hi⟩
  have hword : i.operands.headD 0 < globalsSize := Nat.lt_succ_of_le hfits.headD_le
  have hsize : vm.constants.size = (programChunk p).pool.length := by
    rw [h.constants, ← hp.constants, Array.length_toList]
  unfold Instr.Denotes
  split
  · next heq => rw [hsize]; simpa using hi.const heq
  · rw [h.globals]; exact hword
  · rw [h.globals]; exact hword
  · trivial

theorem OnTrack.step (hp : Holds a p) (h : OnTrack a p vm) {byte : UInt8}
    (hb : vm.fetch? = some byte) :
    match vm.step byte with
    | (.ok (), vm') => OnTrack a p vm'
    | (.error e, _) => e.isMalformed = false := by
  obtain ⟨-, i, hat, hden, hi⟩ := h.covered hp hb
  have := step_spec (l := 0) hb hat (by rw [Nat.zero_add]; exact hi.needs) hden
  rcases hr : vm.step byte with ⟨_ | ⟨⟩, vm'⟩ <;> rw [hr] at this
  · exact this
  · obtain ⟨hv, hnext⟩ := this
    refine ⟨hv.code.trans h.code, hv.constants.trans h.constants, hv.globals.trans h.globals, ?_⟩
    rcases hi.next _ hnext with ht | ht | ⟨-, ht⟩
    · exact .inl ht
    · exact .inr (by rw [ht, hp.size_code, Nat.zero_add])
    · exact absurd hp.breaks ht

/-- Every state that a run goes through, and its end, are on track. -/
theorem OnTrack.run (hp : Holds a p) (h : OnTrack a p vm) (fuel : Nat) :
    match vm.run fuel with
    | (none, vm') => OnTrack a p vm'
    | (some (.ok ()), vm') => vm'.sp = 0
    | (some (.error e), _) => e.isMalformed = false := by
  induction fuel generalizing vm with
  | zero => exact h
  | succ fuel ih =>
    rw [Vm.run]
    cases hb : vm.fetch? with
    | none => exact h.sp_of_end hp hb
    | some byte =>
      have := h.step hp hb
      rcases hr : vm.step byte with ⟨_ | ⟨⟩, vm'⟩ <;> rw [hr] at this <;> simp only [hr]
      · exact this
      · exact ih this

/-- At a place where a statement starts, the stack holds the iterators of the loops around it. -/
theorem OnTrack.sp_of_start (hp : Holds a p) (h : OnTrack a p vm) {d : Nat}
    (hd : (vm.ip, d) ∈ programStarts p) : vm.sp = d := by
  have hseg := (balanced_programChunk p).segment 0 0 placeholder
  have hd : (vm.ip, d) ∈ (programChunk p).spots 0 0 :=
    stmtsStarts_subset {} false 0 0 (Nat.le_refl _) p.stmts hd
  rcases h.spot with hs | hs
  · exact hseg.height_unique hs hd
  · have := hseg.within _ hd
    rw [(Prod.mk.inj hs).1, hp.size_code] at this
    omega

end

/-- The code of every program keeps to its stack: whatever a run does, it does not fail because of its
code, the stack holds one iterator for each `for` loop around a statement where the statement starts,
and nothing at the end. -/
theorem compile_stack_discipline {p : Program} {a : Assembly}
    (h : ({} : Assembly).compile p = .ok a) (fuel : Nat) :
    match (Vm.load a).run fuel with
    | (none, vm) => ∀ d, (vm.ip, d) ∈ programStarts p → vm.sp = d
    | (some (.ok ()), vm) => vm.sp = 0
    | (some (.error e), _) => e.isMalformed = false := by
  have hp := compile_holds h
  have := (onTrack_load hp).run hp fuel
  rcases hr : (Vm.load a).run fuel with ⟨_ | ⟨_ | ⟨⟩⟩, vm⟩ <;> rw [hr] at this
  · exact fun d hd => this.sp_of_start hp hd
  · exact this
  · exact this

/-- A `break` out of a `while` loop and another one out of the `for` loop around it. -/
def nestedBreaks : Program where
  stmts := [.each default none none (.over (.str default "ab")) (.mk default none [
    .loop default (.mk default none (.bool default true) (.mk default none [.brk default none])),
    .brk default none])]
  funcs := []
  handlers := []

theorem nestedBreaks_stack_discipline :
    programStarts nestedBreaks = [(0, 0), (8, 1), (12, 1), (18, 1)] ∧
    ∃ a, ({} : Assembly).compile nestedBreaks = .ok a ∧ ∀ fuel,
      match (Vm.load a).run fuel with
      | (none, vm) => ∀ d, (vm.ip, d) ∈ programStarts nestedBreaks → vm.sp = d
      | (some (.ok ()), vm) => vm.sp = 0
      | (some (.error e), _) => e.isMalformed = false := by
  have hok : (({} : Assembly).compile nestedBreaks).toOption.isSome := by decide +kernel
  refine ⟨by decide +kernel, ?_⟩
  cases h : ({} : Assembly).compile nestedBreaks with
  | error e => rw [h] at hok; cases hok
  | ok a => exact ⟨a, rfl, compile_stack_discipline h⟩

end TinyScript.Bytecode
