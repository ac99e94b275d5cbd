import TinyScript.Proofs.Bytecode.Chunk

/-!
# Steps of a compilation that succeed

What each step of `Assemble` did, given that it had a result, and patches of code: patches at
different places commute (`patch_comm`), and `patchEach` patches several jumps to one target.
-/

namespace TinyScript.Bytecode
open Assemble
variable {α β : Type} {a a' : Assembly}

theorem run_bind_ok {x : Assemble α} {f : α → Assemble β} {r : β} :
    (x >>= f).run a = .ok (r, a') ↔ ∃ s b, x.run a = .ok (s, b) ∧ (f s).run b = .ok (r, a') := by
  rw [StateT.run_bind]
  cases h : x.run a with
  | error e => simp [bind, Except.bind]
  | ok p => obtain ⟨s, b⟩ := p; simp [bind, Except.bind]

theorem run_pure_ok {r s : α} : (pure r : Assemble α).run a = .ok (s, a') ↔ s = r ∧ a' = a := by
  rw [StateT.run_pure]
  constructor
  · rintro ⟨⟩; exact ⟨rfl, rfl⟩
  · rintro ⟨rfl, rfl⟩; rfl

theorem run_emit_ok {op : Opcode} {ns : List Nat} {r : Nat} (h : (emit op ns).run a = .ok (r, a')) :
    (∀ n ∈ ns, n ≤ maxWord) ∧ r = a.code.size ∧
      a' = { a with code := a.code ++ (Instr.encode ⟨op, ns⟩).toArray } := by
  unfold emit at h
  split at h
  · cases h
  · next hns =>
    cases h
    refine ⟨by simpa using hns, rfl, by rw [append_eq]; rfl⟩

theorem run_put_ok {op : Opcode} {ns : List Nat} (h : (put op ns).run a = .ok ((), a')) :
    (∀ n ∈ ns, n ≤ maxWord) ∧
        a' = { a with code := a.code ++ (Instr.encode ⟨op, ns⟩).toArray } := by
  unfold put at h
  obtain ⟨r, b, h, h'⟩ := run_bind_ok.1 h
  obtain ⟨_, rfl⟩ := run_pure_ok.1 h'
  exact ⟨(run_emit_ok h).1, (run_emit_ok h).2.2⟩

theorem run_emitConstant_ok {c : Cell} (h : (emitConstant c).run a = .ok ((), a')) :
    a.constants.size ≤ maxWord ∧
      a' = { a with
        code := a.code ++ (Instr.encode ⟨.constant, [a.constants.size]⟩).toArray
        constants := a.constants.push c } := by
  by_cases hn : maxWord < a.constants.size
  · simp [emitConstant, hn] at h
    cases h
  · have h' : (put .constant [a.constants.size]).run { a with constants := a.constants.push c } =
        .ok ((), a') := by
      simpa [emitConstant, hn] using h
    exact ⟨by omega, (run_put_ok h').2⟩

theorem run_patch_ok {pos k : Nat} (h : (Assemble.patch pos k).run a = .ok ((), a')) :
    a.code.size ≤ maxWord ∧ a' = { a with code := a.code.patch pos k a.code.size } := by
  by_cases hn : maxWord < a.code.size
  · simp [Assemble.patch, here, hn] at h
    cases h
  · simp [Assemble.patch, here, hn] at h
    cases h
    exact ⟨by omega, rfl⟩

theorem run_define_ok {name : String} {r : Nat} (h : (Assemble.define name).run a = .ok (r, a')) :
    r ≤ maxWord ∧ r = (a.symbols.define name).1 ∧
      a' = { a with symbols := (a.symbols.define name).2 } := by
  by_cases hn : maxWord < (a.symbols.define name).1
  · simp [Assemble.define, hn] at h
    cases h
  · simp [Assemble.define, hn] at h
    cases h
    exact ⟨by omega, rfl, rfl⟩

theorem run_resolve_ok {name : String} {r : Nat} (h : (Assemble.resolve name).run a = .ok (r, a')) :
    a.symbols.resolve? name = some r ∧ a' = a := by
  unfold Assemble.resolve at h
  obtain ⟨n, b, hb, h⟩ := run_bind_ok.1 h
  cases hb
  split at h
  · next heq => cases h; exact ⟨heq, rfl⟩
  · cases h

theorem run_nested_ok {m : Assemble α} {r : α} (h : (nested m).run a = .ok (r, a')) :
    ∃ b, m.run { a with symbols := a.symbols.nest } = .ok (r, b) ∧
      a' = { b with symbols := b.symbols.unnest } := by
  unfold nested at h
  obtain ⟨_, b, hb, h⟩ := run_bind_ok.1 h
  cases hb
  obtain ⟨s, b, hb, h⟩ := run_bind_ok.1 h
  obtain ⟨_, c, hc, h⟩ := run_bind_ok.1 h
  cases hc
  cases h
  exact ⟨b, hb, rfl⟩

/-! ### Patches -/

theorem size_setWord {code : Code} {p n : Nat} : (code.setWord p n).size = code.size := by
  unfold Code.setWord; split <;> simp

theorem setWord_comm {code : Code} {p q m n : Nat} (h : p + 2 ≤ q) :
    (code.setWord p m).setWord q n = (code.setWord q n).setWord p m := by
  unfold Code.setWord
  by_cases hq : q + 2 ≤ code.size
  · have hp : p + 2 ≤ code.size := by omega
    simp only [hp, hq, ↓reduceIte, Array.size_setIfInBounds]
    rw [Array.setIfInBounds_comm _ _ (i := p + 1) (j := q) (by omega),
      Array.setIfInBounds_comm _ _ (i := p + 1) (j := q + 1) (by omega),
      Array.setIfInBounds_comm _ _ (i := p) (j := q) (by omega),
      Array.setIfInBounds_comm _ _ (i := p) (j := q + 1) (by omega)]
  · by_cases hp : p + 2 ≤ code.size <;> simp [hp, hq]

/-- Patching the first operand of what stands at a place. -/
theorem patch_zero {code : Code} {p n : Nat} :
    code.patch p 0 n =
      if (code[p]?.bind Opcode.ofByte?).isSome then code.setWord (p + 1) n else code := by
  unfold Code.patch
  cases code[p]?.bind Opcode.ofByte? <;> simp

theorem getElem?_setWord_ne {code : Code} {p q n : Nat} (h0 : q ≠ p) (h1 : q ≠ p + 1) :
    (code.setWord p n)[q]? = code[q]? := by
  unfold Code.setWord
  split
  · rw [Array.getElem?_setIfInBounds_ne (Ne.symm h1), Array.getElem?_setIfInBounds_ne (Ne.symm h0)]
  · rfl

theorem patch_comm {code : Code} {p q m n : Nat} (h : p + 3 ≤ q) :
    (code.patch p 0 m).patch q 0 n = (code.patch q 0 n).patch p 0 m := by
  have hpq : (code.setWord (p + 1) m)[q]? = code[q]? :=
    getElem?_setWord_ne (by omega) (by omega)
  have hqp : (code.setWord (q + 1) n)[p]? = code[p]? :=
    getElem?_setWord_ne (by omega) (by omega)
  simp only [patch_zero]
  by_cases hp : (code[p]?.bind Opcode.ofByte?).isSome <;>
    by_cases hq : (code[q]?.bind Opcode.ofByte?).isSome <;>
    simp [hp, hq, hpq, hqp,
      @setWord_comm code (p + 1) (q + 1) m n (by omega)]

/-- Patches the first operands of what stands at some places. -/
def patchEach (code : Code) (places : List Nat) (n : Nat) : Code :=
  places.foldl (fun code p => code.patch p 0 n) code

theorem patchEach_patch {code : Code} {places : List Nat} {q m n : Nat}
    (h : ∀ p ∈ places, p + 3 ≤ q) :
    (patchEach code places m).patch q 0 n = patchEach (code.patch q 0 n) places m := by
  induction places generalizing code with
  | nil => rfl
  | cons p places ih =>
    obtain ⟨hp, hps⟩ := List.forall_mem_cons.1 h
    simp only [patchEach, List.foldl_cons] at ih ⊢
    rw [ih hps, patch_comm hp]

theorem size_patch {code : Code} {p i n : Nat} : (code.patch p i n).size = code.size := by
  unfold Code.patch
  split
  · exact size_setWord
  · rfl

theorem run_patchAll_ok {places : List Nat} (h : (patchAll places).run a = .ok ((), a')) :
    a' = { a with code := patchEach a.code places a.code.size } ∧
      (places ≠ [] → a.code.size ≤ maxWord) := by
  induction places generalizing a with
  | nil => cases h; exact ⟨rfl, by simp⟩
  | cons p places ih =>
    obtain ⟨_, b, hb, h⟩ := run_bind_ok.1 h
    obtain ⟨hn, rfl⟩ := run_patch_ok hb
    obtain ⟨rfl, -⟩ := ih h
    simp [patchEach, size_patch, hn]

/-! ### Steps that fit -/

section
variable {op : Opcode} {ns : List Nat} {c : Cell} {name : String} {pos k n : Nat}

theorem size_append_encode {code : Code} :
    (code.append (op.encode ns)).size = code.size + op.size := by
  rw [append_eq, Array.size_append, List.size_toArray]
  exact congrArg (code.size + ·) (Instr.length_encode ⟨op, ns⟩)

theorem le_maxWord : n ≤ maxWord ↔ n ≤ 65535 := by rw [maxWord]

theorem run_here : here.run a = pure (a.code.size, a) := rfl

theorem run_emit (h : ∀ n ∈ ns, n ≤ maxWord) :
    (emit op ns).run a = pure (a.code.size, { a with code := a.code.append (op.encode ns) }) := by
  have hfits : ns.any (maxWord < ·) = false := by simpa using h
  rw [emit, hfits]
  rfl

theorem run_put (h : ∀ n ∈ ns, n ≤ maxWord) :
    (put op ns).run a = pure ((), { a with code := a.code.append (op.encode ns) }) := by
  rw [put, StateT.run_bind, run_emit h]
  rfl

theorem run_emitConstant (h : a.constants.size ≤ maxWord) :
    (emitConstant c).run a = pure ((), { a with
      code := a.code.append (Opcode.constant.encode [a.constants.size])
      constants := a.constants.push c }) := by
  have hput : (put .constant [a.constants.size]).run { a with constants := a.constants.push c } = _ :=
    run_put (List.forall_mem_singleton.2 h)
  rw [← hput]
  simp [emitConstant, Nat.not_lt.2 h]

theorem run_patch (h : a.code.size ≤ maxWord) :
    (Assemble.patch pos k).run a = pure ((), { a with code := a.code.patch pos k a.code.size }) := by
  simp [Assemble.patch, here, Nat.not_lt.2 h]

theorem run_define (h : (a.symbols.define name).1 ≤ maxWord) : (Assemble.define name).run a =
    pure ((a.symbols.define name).1, { a with symbols := (a.symbols.define name).2 }) := by
  simp [Assemble.define, Nat.not_lt.2 h]

theorem run_resolve : (Assemble.resolve name).run a =
    (a.symbols.resolve? name).elim (.error (.undefinedVar name)) fun slot => pure (slot, a) := by
  rw [Assemble.resolve, StateT.run_bind, StateT.run_get, pure_bind]
  cases a.symbols.resolve? name <;> rfl

end

end TinyScript.Bytecode
