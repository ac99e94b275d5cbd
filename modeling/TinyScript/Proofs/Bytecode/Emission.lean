import TinyScript.Proofs.Bytecode.Assembling

/-!
# What compilation emits

Compiling a phrase adds exactly the instructions of its chunk: `compileStmts_emits` for statements,
and `compile_holds` for whole programs, whose code has no placeholder left. The jumps of `break` are
the only ones that stay open inside a phrase; `Chunk.Regular` says that patching them gives the
chunk with the other target.
-/

namespace TinyScript.Bytecode
open Assemble

/-! ### Regular chunks -/

namespace Chunk

/-- The size of the code is known, and patching its breaks gives the code for the new target. -/
structure Regular (c : Chunk) : Prop where
  sizeAll_code : ∀ k p x, sizeAll (c.code k p x) = c.size
  retarget : ∀ {k p x y : Nat} {code : Code} {pre post : List UInt8}, pre.length = p →
    (∀ i ∈ c.code k p x, i.Fits) → code.toList = pre ++ (encodeAll (c.code k p x) ++ post) →
      (patchEach code (c.breaks p) y).toList = pre ++ (encodeAll (c.code k p y) ++ post)
  fits : ∀ {k p x y : Nat}, (∀ i ∈ c.code k p x, i.Fits) → (c.breaks p ≠ [] → y ≤ maxWord) →
    ∀ i ∈ c.code k p y, i.Fits

/-- A chunk without breaks. -/
structure Closed (c : Chunk) : Prop where
  sizeAll_code : ∀ k p x, sizeAll (c.code k p x) = c.size
  breaks_eq : ∀ p, c.breaks p = []
  code_eq : ∀ k p x y, c.code k p x = c.code k p y

variable {c d e : Chunk}

theorem Closed.regular (h : c.Closed) : c.Regular where
  sizeAll_code := h.sizeAll_code
  retarget := by
    intro k p x y code pre post _ _ hcode
    rw [h.breaks_eq, h.code_eq k p y x]
    exact hcode
  fits := by
    intro k p x y hx _
    rw [h.code_eq k p y x]
    exact hx

theorem closed_empty : Closed .empty := ⟨fun _ _ _ => rfl, fun _ => rfl, fun _ _ _ _ => rfl⟩

theorem closed_instr (i : Instr) : Closed (.instr i) :=
  ⟨fun _ _ _ => rfl, fun _ => rfl, fun _ _ _ _ => rfl⟩

theorem closed_const (v : Cell) : Closed (.const v) :=
  ⟨fun _ _ _ => rfl, fun _ => rfl, fun _ _ _ _ => rfl⟩

theorem Closed.seq (hc : c.Closed) (hd : d.Closed) : (c.seq d).Closed where
  sizeAll_code k p x := by simp [Chunk.seq, hc.sizeAll_code, hd.sizeAll_code]
  breaks_eq p := by simp [Chunk.seq, hc.breaks_eq, hd.breaks_eq]
  code_eq k p x y := by
    simp only [Chunk.seq]
    rw [hc.code_eq k p x y, hd.code_eq _ _ x y]

theorem Closed.andAlso (hc : c.Closed) (hd : d.Closed) : (c.andAlso d).Closed where
  sizeAll_code k p x := by
    simp only [Chunk.andAlso, sizeAll_append, sizeAll_cons, hc.sizeAll_code, hd.sizeAll_code]
    rfl
  breaks_eq _ := rfl
  code_eq k p x y := by
    simp only [Chunk.andAlso]
    rw [hc.code_eq k p x y, hd.code_eq _ _ x y]

theorem Closed.orElse (hc : c.Closed) (hd : d.Closed) : (c.orElse d).Closed where
  sizeAll_code k p x := by
    simp only [Chunk.orElse, sizeAll_append, sizeAll_cons, hc.sizeAll_code, hd.sizeAll_code,
      Instr.size, Opcode.size, Opcode.arity]
    omega
  breaks_eq _ := rfl
  code_eq k p x y := by
    simp only [Chunk.orElse]
    rw [hc.code_eq k p x y, hd.code_eq _ _ x y]

theorem Closed.loop (hc : c.Closed) (hd : d.Regular) : (c.loop d).Closed where
  sizeAll_code k p x := by
    simp only [Chunk.loop, sizeAll_append, sizeAll_cons, hc.sizeAll_code, hd.sizeAll_code]
    rfl
  breaks_eq _ := rfl
  code_eq _ _ _ _ := rfl

theorem Closed.each {binds : Bool} (hc : c.Closed) (hd : d.Closed) (he : e.Regular) :
    (c.each binds d e).Closed where
  sizeAll_code k p x := by
    simp only [Chunk.each, sizeAll_append, sizeAll_cons, hc.sizeAll_code, hd.sizeAll_code,
      he.sizeAll_code]
    rfl
  breaks_eq _ := rfl
  code_eq _ _ _ _ := rfl

theorem patchEach_append {code : Code} {ps qs : List Nat} {n : Nat} :
    patchEach code (ps ++ qs) n = patchEach (patchEach code ps n) qs n :=
  List.foldl_append ..

theorem Regular.seq (hc : c.Regular) (hd : d.Regular) : (c.seq d).Regular where
  sizeAll_code k p x := by simp [Chunk.seq, hc.sizeAll_code, hd.sizeAll_code]
  retarget := by
    intro k p x y code pre post hp hfits hcode
    simp only [Chunk.seq, List.forall_mem_append, encodeAll_append, List.append_assoc] at hfits hcode ⊢
    rw [patchEach_append]
    have h1 := hc.retarget (y := y) hp hfits.1 hcode
    rw [← List.append_assoc] at h1
    have hlen : (pre ++ encodeAll (c.code k p y)).length = p + c.size := by
      rw [List.length_append, length_encodeAll, hc.sizeAll_code, hp]
    rw [hd.retarget hlen hfits.2 h1, List.append_assoc]
  fits := by
    intro k p x y hfits hy
    simp only [Chunk.seq, List.forall_mem_append] at hfits ⊢
    refine ⟨hc.fits hfits.1 fun h => hy ?_, hd.fits hfits.2 fun h => hy ?_⟩ <;>
      simp [Chunk.seq, h]

theorem Regular.arm (hc : c.Closed) (hd : d.Regular) (he : e.Regular) : (c.arm d e).Regular where
  sizeAll_code k p x := by
    simp only [Chunk.arm, sizeAll_append, sizeAll_cons, hc.sizeAll_code, hd.sizeAll_code,
      he.sizeAll_code]
    rfl
  retarget := by
    intro k p x y code pre post hp hfits hcode
    simp only [Chunk.arm, List.forall_mem_append, List.forall_mem_cons, encodeAll_append,
      encodeAll_cons, List.append_assoc] at hfits hcode ⊢
    obtain ⟨-, -, hd', -, he'⟩ := hfits
    rw [hc.code_eq k p x y, ← List.append_assoc, ← List.append_assoc] at hcode
    rw [patchEach_append]
    -- the jumps of the body come first, then those of what follows it
    have h1 := hd.retarget (y := y) ?_ hd' hcode
    · simp only [← List.append_assoc _ _ (encodeAll (e.code _ _ _) ++ post)] at h1
      rw [he.retarget ?_ he' h1]
      · simp only [List.append_assoc]
      · simp only [List.length_append, length_encodeAll, Instr.length_encode, hc.sizeAll_code,
          hd.sizeAll_code, hp]
        rfl
    · simp only [List.length_append, length_encodeAll, Instr.length_encode, hc.sizeAll_code, hp]
      rfl
  fits := by
    intro k p x y hfits hy
    simp only [Chunk.arm, List.forall_mem_append, List.forall_mem_cons, List.append_eq_nil_iff,
      ne_eq, not_and] at hfits hy ⊢
    obtain ⟨hc', h1, hd', h2, he'⟩ := hfits
    refine ⟨hc.code_eq k p x y ▸ hc', h1, hd.fits hd' fun h => hy ?_, h2, he.fits he' fun h => hy ?_⟩
    · exact fun h' => absurd h' h
    · exact fun _ => h

theorem regular_brk (b : Bool) : Regular (.brk b) where
  sizeAll_code k p x := by cases b <;> rfl
  retarget := by
    intro k p x y code pre post hp hfits hcode
    subst hp
    cases b with
    | true =>
      have hcode' : code = ((pre ++ Instr.encode ⟨.drop, [1]⟩) ++
          (Instr.encode ⟨.jump, [x]⟩ ++ post)).toArray := by
        rw [← Array.toList_inj, hcode]; simp [brk]
      have hlen : (pre ++ Instr.encode ⟨.drop, [1]⟩).length = pre.length + 3 := by
        rw [List.length_append, Instr.length_encode]; rfl
      have := patch_encode (pre ++ Instr.encode ⟨.drop, [1]⟩) post (k := 0) (n := y)
        (hfits ⟨.jump, [x]⟩ (by simp [brk])) Nat.zero_lt_one
      rw [hlen, ← hcode'] at this
      simp [patchEach, brk, this]
    | false =>
      have hcode' : code = (pre ++ (Instr.encode ⟨.jump, [x]⟩ ++ post)).toArray := by
        rw [← Array.toList_inj, hcode]; simp [brk]
      have := patch_encode pre post (k := 0) (n := y)
        (hfits ⟨.jump, [x]⟩ (by simp [brk])) Nat.zero_lt_one
      rw [← hcode'] at this
      simp [patchEach, brk, this]
  fits := by
    intro k p x y hfits hy
    have hjump : Instr.Fits ⟨.jump, [y]⟩ := ⟨rfl, by simpa using hy (by simp [brk])⟩
    cases b with
    | true => simpa [brk, hjump] using hfits ⟨.drop, [1]⟩ (by simp [brk])
    | false => simpa [brk] using hjump

end Chunk

variable {a a' b : Assembly} {c d e : Chunk}

/-! ### Growth -/

/-- Adds jumps out of the innermost loop. -/
def addBreaks (places : List Nat) : List Loop → List Loop
  | [] => []
  | l :: ls => { l with breaks := l.breaks ++ places.toArray } :: ls

@[simp] theorem addBreaks_nil (ls : List Loop) : addBreaks [] ls = ls := by
  cases ls <;> simp [addBreaks]

theorem addBreaks_append (ps qs : List Nat) (ls : List Loop) :
    addBreaks (ps ++ qs) ls = addBreaks qs (addBreaks ps ls) := by
  cases ls <;> simp [addBreaks]

/-- From `a` to `a'` instructions, constants and open jumps out of the innermost loop were added. -/
structure Adds (a a' : Assembly) (is : List Instr) (pool : List Cell) (breaks : List Nat) : Prop where
  code : a'.code.toList = a.code.toList ++ encodeAll is
  constants : a'.constants.toList = a.constants.toList ++ pool
  loops : a'.loops = addBreaks breaks a.loops
  inLoop : breaks ≠ [] → a.loops ≠ []
  fits : ∀ i ∈ is, i.Fits

namespace Adds

variable {is js : List Instr} {vs ws : List Cell} {ps qs : List Nat}

theorem size_constants (h : Adds a a' is vs ps) : a'.constants.size = a.constants.size + vs.length := by
  simpa using congrArg List.length h.constants

theorem size_code (h : Adds a a' is vs ps) : a'.code.size = a.code.size + sizeAll is := by
  simpa [length_encodeAll] using congrArg List.length h.code

theorem refl (a : Assembly) : Adds a a [] [] [] := ⟨by simp, by simp, by simp, by simp, by simp⟩

theorem congr (h : Adds a a' is vs ps) (hi : js = is) (hv : ws = vs) (hp : qs = ps) :
    Adds a a' js ws qs := by
  subst hi hv hp; exact h

theorem append (h : Adds a b is vs ps) (h' : Adds b a' js ws qs) :
    Adds a a' (is ++ js) (vs ++ ws) (ps ++ qs) := by
  refine ⟨?_, ?_, ?_, ?_, ?_⟩
  · rw [h'.code, h.code]; simp
  · rw [h'.constants, h.constants]; simp
  · rw [h'.loops, h.loops, addBreaks_append]
  · intro hne
    by_cases hps : ps = []
    · have := h'.inLoop (by simpa [hps] using hne)
      simpa [h.loops, hps] using this
    · exact h.inLoop hps
  · exact List.forall_mem_append.2 ⟨h.fits, h'.fits⟩

/-- Patching operand `k` of an instruction that was added. -/
theorem patch {pos k : Nat} {ks : List Instr} (is : List Instr) (i : Instr) (js : List Instr)
    (h : Adds a b ks vs ps) (hks : ks = is ++ i :: js) (hpos : pos = a.code.size + sizeAll is)
    (hk : k < i.op.arity)
    (hr : (Assemble.patch pos k).run b = .ok ((), a')) :
    Adds a a' (is ++ { i with operands := i.operands.set k b.code.size } :: js) vs ps ∧
      a'.symbols = b.symbols ∧ a'.code.size = b.code.size := by
  subst hks
  obtain ⟨hn, rfl⟩ := run_patch_ok hr
  obtain ⟨hf, hi, hf'⟩ : (∀ j ∈ is, j.Fits) ∧ i.Fits ∧ ∀ j ∈ js, j.Fits := by
    simpa only [List.forall_mem_append, List.forall_mem_cons] using h.fits
  have hcode : b.code =
      ((a.code.toList ++ encodeAll is) ++ (i.encode ++ encodeAll js)).toArray := by
    rw [← Array.toList_inj, h.code]; simp
  have hlen : (a.code.toList ++ encodeAll is).length = pos := by
    rw [List.length_append, length_encodeAll, hpos, Array.length_toList]
  refine ⟨⟨?_, h.constants, h.loops, h.inLoop, ?_⟩, rfl, size_patch⟩
  · show (b.code.patch pos k b.code.size).toList = _
    generalize b.code.size = n
    rw [← hlen, hcode, patch_encode _ _ hi hk]
    simp
  · refine List.forall_mem_append.2 ⟨hf, List.forall_mem_cons.2 ⟨⟨?_, ?_⟩, hf'⟩⟩
    · simpa using hi.arity
    · intro m hm
      rcases List.mem_or_eq_of_mem_set hm with hm | rfl
      · exact hi.words m hm
      · exact hn

theorem of_emit {op : Opcode} {ns : List Nat} {r : Nat} (har : ns.length = op.arity)
    (h : (emit op ns).run a = .ok (r, a')) :
    Adds a a' [⟨op, ns⟩] [] [] ∧ a'.symbols = a.symbols ∧ r = a.code.size := by
  obtain ⟨hns, hr, rfl⟩ := run_emit_ok h
  exact ⟨⟨by simp, by simp, by simp, by simp, by simpa using ⟨har, hns⟩⟩, rfl, hr⟩

theorem of_put {op : Opcode} {ns : List Nat} (har : ns.length = op.arity)
    (h : (put op ns).run a = .ok ((), a')) :
    Adds a a' [⟨op, ns⟩] [] [] ∧ a'.symbols = a.symbols := by
  obtain ⟨r, b, hb, h⟩ := run_bind_ok.1 h
  obtain ⟨-, rfl⟩ := run_pure_ok.1 h
  exact ⟨(of_emit har hb).1, (of_emit har hb).2.1⟩

theorem of_emitConstant {v : Cell} (h : (emitConstant v).run a = .ok ((), a')) :
    Adds a a' [⟨.constant, [a.constants.size]⟩] [v] [] ∧ a'.symbols = a.symbols := by
  obtain ⟨hn, rfl⟩ := run_emitConstant_ok h
  exact ⟨⟨by simp, by simp, by simp, by simp, by simpa using ⟨rfl, by simpa using hn⟩⟩, rfl⟩

end Adds

/-- Assembly `a` has grown to `a'` by a chunk whose breaks are still open. -/
def Grown (a a' : Assembly) (c : Chunk) : Prop :=
  Adds a a' (c.code a.constants.size a.code.size placeholder) c.pool (c.breaks a.code.size)

namespace Grown

theorem size_code (hc : c.Regular) (h : Grown a a' c) : a'.code.size = a.code.size + c.size := by
  rw [Adds.size_code h, hc.sizeAll_code]

theorem seq (hc : c.Regular) (h : Grown a b c) (h' : Grown b a' d) : Grown a a' (c.seq d) := by
  have h' : Adds b a' _ _ _ := h'
  rw [h.size_constants, h.size_code hc] at h'
  exact Adds.append h h'

end Grown

/-! ### Expressions -/

theorem Grown.andAlso {a1 a2 a3 a4 a5 a6 : Assembly} (hc : c.Closed) (hd : d.Closed)
    (h1 : Grown a a1 c) (h2 : Adds a1 a2 [⟨.jumpNotTruthy, [placeholder]⟩] [] [])
    (h3 : Grown a2 a3 d) (h4 : Adds a3 a4 [⟨.jump, [placeholder]⟩] [] [])
    (h5 : (Assemble.patch a1.code.size 0).run a4 = .ok ((), a5))
    (h6 : Adds a5 a6 [⟨.false, []⟩] [] [])
    (h7 : (Assemble.patch a3.code.size 0).run a6 = .ok ((), a')) :
    Grown a a' (c.andAlso d) ∧ a'.symbols = a6.symbols := by
  have h := Adds.append h1 (Adds.append h2 (Adds.append h3 h4))
  have s1 := h1.size_code hc.regular
  have s2 := h2.size_code
  have s3 := h3.size_code hd.regular
  have s4 := h4.size_code
  have s6 := h6.size_code
  have k2 := h2.size_constants
  have k1 := h1.size_constants
  simp only [sizeAll_cons, sizeAll_nil, Instr.size, Opcode.size, Opcode.arity, List.length_nil]
    at s2 s4 s6 k2
  obtain ⟨h, -, s5⟩ := h.patch _ _ _ rfl (by rw [s1, hc.sizeAll_code]) Nat.zero_lt_one h5
  have h := h.append h6
  obtain ⟨h, hs, s7⟩ := h.patch (c.code a.constants.size a.code.size placeholder ++
    ⟨.jumpNotTruthy, [a4.code.size]⟩ :: d.code a2.constants.size a2.code.size placeholder)
    ⟨.jump, [placeholder]⟩ [⟨.false, []⟩] (by simp) (by
      simp [hc.sizeAll_code, hd.sizeAll_code, Instr.size, Opcode.size, Opcode.arity, s3, s2, s1]
      omega) Nat.zero_lt_one h7
  refine ⟨Adds.congr h ?_ ?_ ?_, hs⟩
  · simp [Chunk.andAlso, k2, k1, s6, s5, s4, s3, s2, s1]
    omega
  · simp [Chunk.andAlso]
  · simp [Chunk.andAlso, hc.breaks_eq, hd.breaks_eq]

theorem Grown.orElse {a1 a2 a3 a4 a5 a6 : Assembly} (hc : c.Closed) (hd : d.Closed)
    (h1 : Grown a a1 c) (h2 : Adds a1 a2 [⟨.jumpNotTruthy, [placeholder]⟩] [] [])
    (h3 : Adds a2 a3 [⟨.true, []⟩] [] []) (h4 : Adds a3 a4 [⟨.jump, [placeholder]⟩] [] [])
    (h5 : (Assemble.patch a1.code.size 0).run a4 = .ok ((), a5)) (h6 : Grown a5 a6 d)
    (h7 : (Assemble.patch a3.code.size 0).run a6 = .ok ((), a')) :
    Grown a a' (c.orElse d) ∧ a'.symbols = a6.symbols := by
  have h := Adds.append h1 (Adds.append h2 (Adds.append h3 h4))
  have s1 := h1.size_code hc.regular
  have s2 := h2.size_code
  have s3 := h3.size_code
  have s4 := h4.size_code
  have s6 := h6.size_code hd.regular
  have k1 := h1.size_constants
  simp only [sizeAll_cons, sizeAll_nil, Instr.size, Opcode.size, Opcode.arity] at s2 s3 s4
  obtain ⟨h, -, s5⟩ := h.patch _ _ _ rfl (by rw [s1, hc.sizeAll_code]) Nat.zero_lt_one h5
  have k5 := h.size_constants
  have h := h.append h6
  obtain ⟨h, hs, s7⟩ := h.patch (c.code a.constants.size a.code.size placeholder ++
    [⟨.jumpNotTruthy, [a4.code.size]⟩, ⟨.true, []⟩])
    ⟨.jump, [placeholder]⟩ (d.code a5.constants.size a5.code.size placeholder) (by simp) (by
      simp [hc.sizeAll_code, Instr.size, Opcode.size, Opcode.arity, s3, s2, s1]
      omega) Nat.zero_lt_one h7
  refine ⟨Adds.congr h ?_ ?_ ?_, hs⟩
  · simp [Chunk.orElse, k5, s6, s5, s4, s3, s2, s1, Nat.add_assoc]
  · simp [Chunk.orElse]
  · simp [Chunk.orElse, hc.breaks_eq, hd.breaks_eq]

/-- The code of an operator other than `and` and `or`. -/
theorem compileExpr_binary {m : Mark} {op : BinaryOp} {tight : Bool} {left right : Expr}
    (h1 : op ≠ .and) (h2 : op ≠ .or) :
    compileExpr (.binary m op tight left right) = (do
      compileExpr left
      compileExpr right
      match opcodeOf? op left.ty.kind with
      | some code => put code []
      | none => unsupported .binaryOperator m.token) := by
  cases op <;> first | contradiction | rfl

theorem exprChunk_binary {sy : Symbols} {m : Mark} {op : BinaryOp} {tight : Bool} {left right : Expr}
    (h1 : op ≠ .and) (h2 : op ≠ .or) :
    exprChunk sy (.binary m op tight left right) =
      ((exprChunk sy left).seq (exprChunk sy right)).seq
        (.instr ⟨(opcodeOf? op left.ty.kind).getD .equal, []⟩) := by
  cases op <;> first | contradiction | simp [exprChunk]

theorem arity_opcodeOf? {op : BinaryOp} {k : Kind} {code : Opcode} (h : opcodeOf? op k = some code) :
    code.arity = 0 := by
  cases op <;> cases k <;> cases h <;> rfl

mutual

theorem closed_exprChunk (sy : Symbols) : (e : Expr) → (exprChunk sy e).Closed
  | .num .. | .str .. => by rw [exprChunk]; exact Chunk.closed_const _
  | .bool .. | .var .. => by rw [exprChunk]; exact Chunk.closed_instr _
  | .array _ _ elems => by
    rw [exprChunk]; exact (closed_listChunk sy elems).seq (Chunk.closed_instr _)
  | .map _ _ pairs => by
    rw [exprChunk]; exact (closed_pairsChunk sy pairs).seq (Chunk.closed_instr _)
  | .unary _ _ e => by rw [exprChunk]; exact (closed_exprChunk sy e).seq (Chunk.closed_instr _)
  | .binary _ op _ l r => by
    have hl := closed_exprChunk sy l
    have hr := closed_exprChunk sy r
    by_cases h1 : op = .and
    · subst h1; rw [exprChunk]; exact hl.andAlso hr
    by_cases h2 : op = .or
    · subst h2; rw [exprChunk]; exact hl.orElse hr
    rw [exprChunk_binary h1 h2]; exact (hl.seq hr).seq (Chunk.closed_instr _)
  | .index _ l k => by
    rw [exprChunk]
    exact ((closed_exprChunk sy l).seq (closed_exprChunk sy k)).seq (Chunk.closed_instr _)
  | .slice _ l x y => by
    rw [exprChunk]
    exact (((closed_exprChunk sy l).seq (closed_optionChunk sy x)).seq
      (closed_optionChunk sy y)).seq (Chunk.closed_instr _)
  | .dot _ l _ => by
    rw [exprChunk]
    exact ((closed_exprChunk sy l).seq (Chunk.closed_const _)).seq (Chunk.closed_instr _)
  | .group _ e | .any _ e => by rw [exprChunk]; exact closed_exprChunk sy e
  | .call .. | .assert .. => by rw [exprChunk]; exact Chunk.closed_instr _

theorem closed_listChunk (sy : Symbols) : (es : List Expr) → (listChunk sy es).Closed
  | [] => by rw [listChunk]; exact Chunk.closed_empty
  | e :: es => by rw [listChunk]; exact (closed_exprChunk sy e).seq (closed_listChunk sy es)

theorem closed_pairsChunk (sy : Symbols) : (ps : List (String × Expr)) → (pairsChunk sy ps).Closed
  | [] => by rw [pairsChunk]; exact Chunk.closed_empty
  | (_, e) :: ps => by
    rw [pairsChunk]
    exact ((Chunk.closed_const _).seq (closed_exprChunk sy e)).seq (closed_pairsChunk sy ps)

theorem closed_optionChunk (sy : Symbols) : (e : Option Expr) → (optionChunk sy e).Closed
  | some e => by rw [optionChunk]; exact closed_exprChunk sy e
  | none => by rw [optionChunk]; exact Chunk.closed_instr _

end

/-- A step that succeeds adds a chunk and leaves the slots of variables as they are. -/
def Emits (m : Assemble Unit) (chunk : Symbols → Chunk) : Prop :=
  ∀ a a' : Assembly, m.run a = .ok ((), a') →
    Grown a a' (chunk a.symbols) ∧ a'.symbols = a.symbols

namespace Emits

variable {m n : Assemble Unit} {f g : Symbols → Chunk}

theorem seq (hf : ∀ sy, (f sy).Closed) (hm : Emits m f) (hn : Emits n g) :
    Emits (m >>= fun _ => n) fun sy => (f sy).seq (g sy) := by
  intro a a' h
  obtain ⟨_, b, hb, h⟩ := run_bind_ok.1 h
  obtain ⟨hb, hs⟩ := hm _ _ hb
  obtain ⟨h, hs'⟩ := hn _ _ h
  rw [hs] at h hs'
  exact ⟨hb.seq (hf _).regular h, hs'⟩

theorem put (op : Opcode) (ns : List Nat) (h : ns.length = op.arity) :
    Emits (put op ns) fun _ => .instr ⟨op, ns⟩ :=
  fun _ _ hr => Adds.of_put h hr

theorem emitConstant (v : Cell) : Emits (emitConstant v) fun _ => .const v :=
  fun _ _ hr => Adds.of_emitConstant hr

theorem pure : Emits (pure ()) fun _ => .empty := by
  intro a a' h
  obtain ⟨-, rfl⟩ := run_pure_ok.1 h
  exact ⟨Adds.refl _, rfl⟩

theorem throw {err : CompileError} : Emits (throw err) f := fun _ _ h => by cases h

/-- The slot of a variable in an instruction. -/
theorem resolve {op : Opcode} {name : String} (h : op.arity = 1) :
    Emits (do Assemble.put op [← Assemble.resolve name]) fun sy =>
      .instr ⟨op, [(sy.resolve? name).getD 0]⟩ := by
  intro a a' hr
  obtain ⟨n, b, hb, hput⟩ := run_bind_ok.1 hr
  obtain ⟨hn, rfl⟩ := run_resolve_ok hb
  simp only [hn]
  exact Adds.of_put h.symm hput

end Emits

mutual

/-- Compiling an expression adds its chunk. -/
theorem compileExpr_emits : (e : Expr) → Emits (compileExpr e) (exprChunk · e)
  | .num .. | .str .. => by
    simp only [compileExpr, exprChunk]; exact .emitConstant _
  | .bool _ b => by
    simp only [compileExpr, exprChunk]; exact .put _ _ (by cases b <;> rfl)
  | .var .. => by
    simp only [compileExpr, exprChunk]; exact .resolve rfl
  | .array _ _ elems => by
    simp only [compileExpr, exprChunk]
    exact .seq (closed_listChunk · _) (compileList_emits elems) (.put _ _ rfl)
  | .map _ _ pairs => by
    simp only [compileExpr, exprChunk]
    exact .seq (closed_pairsChunk · _) (compilePairs_emits pairs) (.put _ _ rfl)
  | .unary _ op e => by
    simp only [compileExpr, exprChunk]
    exact .seq (closed_exprChunk · _) (compileExpr_emits e) (.put _ _ (by cases op <;> rfl))
  | .binary m op t l r => by
    have hl := compileExpr_emits l
    have hr := compileExpr_emits r
    by_cases h1 : op = .and
    · subst h1
      simp only [compileExpr, exprChunk]
      intro a a' h
      obtain ⟨_, a1, h, h'⟩ := run_bind_ok.1 h
      obtain ⟨g1, e1⟩ := hl _ _ h
      obtain ⟨short, a2, h, h'⟩ := run_bind_ok.1 h'
      obtain ⟨g2, e2, rfl⟩ := Adds.of_emit rfl h
      obtain ⟨_, a3, h, h'⟩ := run_bind_ok.1 h'
      obtain ⟨g3, e3⟩ := hr _ _ h
      obtain ⟨stop, a4, h, h'⟩ := run_bind_ok.1 h'
      obtain ⟨g4, e4, rfl⟩ := Adds.of_emit rfl h
      obtain ⟨_, a5, h5, h'⟩ := run_bind_ok.1 h'
      obtain ⟨_, a6, h, h7⟩ := run_bind_ok.1 h'
      obtain ⟨g6, e6⟩ := Adds.of_put rfl h
      have e5 : a5.symbols = a4.symbols := by rw [(run_patch_ok h5).2]
      rw [e2, e1] at g3 e3
      obtain ⟨g, e⟩ := Grown.andAlso (closed_exprChunk _ _) (closed_exprChunk _ _) g1 g2 g3 g4 h5 g6 h7
      exact ⟨g, by rw [e, e6, e5, e4, e3]⟩
    by_cases h2 : op = .or
    · subst h2
      simp only [compileExpr, exprChunk]
      intro a a' h
      obtain ⟨_, a1, h, h'⟩ := run_bind_ok.1 h
      obtain ⟨g1, e1⟩ := hl _ _ h
      obtain ⟨more, a2, h, h'⟩ := run_bind_ok.1 h'
      obtain ⟨g2, e2, rfl⟩ := Adds.of_emit rfl h
      obtain ⟨_, a3, h, h'⟩ := run_bind_ok.1 h'
      obtain ⟨g3, e3⟩ := Adds.of_put rfl h
      obtain ⟨stop, a4, h, h'⟩ := run_bind_ok.1 h'
      obtain ⟨g4, e4, rfl⟩ := Adds.of_emit rfl h
      obtain ⟨_, a5, h5, h'⟩ := run_bind_ok.1 h'
      obtain ⟨_, a6, h, h7⟩ := run_bind_ok.1 h'
      obtain ⟨g6, e6⟩ := hr _ _ h
      have e5 : a5.symbols = a.symbols := by rw [(run_patch_ok h5).2]; rw [e4, e3, e2, e1]
      rw [e5] at g6 e6
      obtain ⟨g, e⟩ := Grown.orElse (closed_exprChunk _ _) (closed_exprChunk _ _) g1 g2 g3 g4 h5 g6 h7
      exact ⟨g, by rw [e, e6]⟩
    rw [compileExpr_binary h1 h2]
    simp only [exprChunk_binary h1 h2]
    have hop : Emits (match opcodeOf? op l.ty.kind with
        | some code => put code []
        | none => unsupported .binaryOperator m.token)
        fun _ => .instr ⟨(opcodeOf? op l.ty.kind).getD .equal, []⟩ := by
      cases hc : opcodeOf? op l.ty.kind with
      | some code => exact .put _ _ (arity_opcodeOf? hc).symm
      | none => exact .throw
    have := Emits.seq (fun sy => (closed_exprChunk sy l).seq (closed_exprChunk sy r))
      (.seq (closed_exprChunk · _) hl hr) hop
    simpa only [bind_assoc] using this
  | .index _ l k => by
    simp only [compileExpr, exprChunk]
    have := Emits.seq (fun sy => (closed_exprChunk sy l).seq (closed_exprChunk sy k))
      (.seq (closed_exprChunk · _) (compileExpr_emits l) (compileExpr_emits k))
      (.put .index [] rfl)
    simpa only [bind_assoc] using this
  | .slice _ l x y => by
    simp only [compileExpr, exprChunk]
    have := Emits.seq (fun sy => ((closed_exprChunk sy l).seq (closed_optionChunk sy x)).seq
        (closed_optionChunk sy y))
      (.seq (fun sy => (closed_exprChunk sy l).seq (closed_optionChunk sy x))
        (.seq (closed_exprChunk · _) (compileExpr_emits l) (compileOptional_emits x))
        (compileOptional_emits y))
      (.put .slice [] rfl)
    simpa only [bind_assoc] using this
  | .dot _ l key => by
    simp only [compileExpr, exprChunk]
    have := Emits.seq (fun sy => (closed_exprChunk sy l).seq (Chunk.closed_const _))
      (.seq (closed_exprChunk · _) (compileExpr_emits l) (.emitConstant (.str key)))
      (.put .index [] rfl)
    simpa only [bind_assoc] using this
  | .group _ e | .any _ e => by
    simp only [compileExpr, exprChunk]; exact compileExpr_emits e
  | .call .. | .assert .. => by
    simp only [compileExpr]; exact .throw

theorem compileList_emits : (es : List Expr) → Emits (compileList es) (listChunk · es)
  | [] => by simp only [compileList, listChunk]; exact .pure
  | e :: es => by
    simp only [compileList, listChunk]
    exact .seq (closed_exprChunk · _) (compileExpr_emits e) (compileList_emits es)

theorem compilePairs_emits : (ps : List (String × Expr)) → Emits (compilePairs ps) (pairsChunk · ps)
  | [] => by simp only [compilePairs, pairsChunk]; exact .pure
  | (key, e) :: ps => by
    simp only [compilePairs, pairsChunk]
    have := Emits.seq (fun sy => (Chunk.closed_const _).seq (closed_exprChunk sy e))
      (.seq (fun _ => Chunk.closed_const _) (.emitConstant (.str key)) (compileExpr_emits e))
      (compilePairs_emits ps)
    simpa only [bind_assoc] using this

theorem compileOptional_emits : (e : Option Expr) → Emits (compileOptional e) (optionChunk · e)
  | some e => by simp only [compileOptional, optionChunk]; exact compileExpr_emits e
  | none => by simp only [compileOptional, optionChunk]; exact .put _ _ rfl

end

/-! ### Loops -/

/-- Whether the innermost loop has an iterator. -/
def topIterator : List Loop → Bool
  | [] => false
  | l :: _ => l.hasIterator

@[simp] theorem topIterator_addBreaks (ps : List Nat) (ls : List Loop) :
    topIterator (addBreaks ps ls) = topIterator ls := by
  cases ls <;> rfl

theorem Adds.topIterator_eq {is : List Instr} {vs : List Cell} {ps : List Nat}
    (h : Adds a a' is vs ps) : topIterator a'.loops = topIterator a.loops := by
  rw [h.loops, topIterator_addBreaks]

/-- The body of a loop: what it adds, the jump back, and its breaks at the end of the loop. -/
theorem loopBody_adds {start : Nat} {hasIterator : Bool} {body : Assemble Unit} (sy : Symbols)
    (hc : c.Regular)
    (hbody : ∀ b, body.run { a with loops := { hasIterator } :: a.loops } = .ok ((), b) →
      Grown { a with loops := { hasIterator } :: a.loops } b c ∧ b.symbols = sy)
    (h : (loopBody start hasIterator body).run a = .ok ((), a')) :
    Adds a a' (c.code a.constants.size a.code.size (a.code.size + c.size + 3) ++ [⟨.jump, [start]⟩])
      c.pool [] ∧ a'.symbols = sy := by
  obtain ⟨_, a1, h1, h⟩ := run_bind_ok.1 h
  cases h1
  obtain ⟨_, a2, h2, h⟩ := run_bind_ok.1 h
  obtain ⟨g2, hs⟩ := hbody a2 h2
  have hloops := g2.loops
  simp only [addBreaks, Array.empty_append] at hloops
  obtain ⟨breaks, a3, h3, h⟩ := run_bind_ok.1 h
  have h3' : (breaks, a3) = ((c.breaks a.code.size).toArray, { a2 with loops := a.loops }) := by
    simp only [modifyGet, MonadStateOf.modifyGet, StateT.modifyGet, StateT.run, hloops] at h3
    cases h3
    simp
  obtain ⟨rfl, rfl⟩ := Prod.mk.inj h3'
  obtain ⟨_, a4, h4, h⟩ := run_bind_ok.1 h
  obtain ⟨g4, hs4⟩ := Adds.of_put rfl h4
  obtain ⟨rfl, hn⟩ := run_patchAll_ok h
  have hcode4 : a4.code.toList = a.code.toList ++ (encodeAll (c.code a.constants.size a.code.size
      placeholder) ++ encodeAll [⟨.jump, [start]⟩]) := by
    have hcode2 := g2.code
    rw [g4.code]
    simp_all
  have hsize : a4.code.size = a.code.size + c.size + 3 := by
    rw [g4.size_code, show _ = _ from g2.size_code hc]
    rfl
  refine ⟨⟨?_, ?_, ?_, by simp, ?_⟩, hs4.trans hs⟩
  · have := hc.retarget (y := a4.code.size) (by simp) g2.fits hcode4
    simpa [hsize] using this
  · simpa [g4.constants] using g2.constants
  · simpa using g4.loops
  · refine List.forall_mem_append.2 ⟨hc.fits g2.fits fun hb => ?_, g4.fits⟩
    rw [← hsize]
    exact hn (by simpa using hb)

/-- A `while` loop. -/
theorem Grown.loop {a1 a2 a3 : Assembly} (hc : c.Closed) (hd : d.Regular) (h1 : Grown a a1 c)
    (h2 : Adds a1 a2 [⟨.jumpNotTruthy, [placeholder]⟩] [] [])
    (h3 : Adds a2 a3 (d.code a2.constants.size a2.code.size (a2.code.size + d.size + 3) ++
      [⟨.jump, [a.code.size]⟩]) d.pool [])
    (h4 : (Assemble.patch a1.code.size 0).run a3 = .ok ((), a')) :
    Grown a a' (c.loop d) ∧ a'.symbols = a3.symbols := by
  have h := Adds.append h1 (h2.append h3)
  have s1 := h1.size_code hc.regular
  have s2 := h2.size_code
  have s3 := h3.size_code
  have k1 := h1.size_constants
  have k2 := h2.size_constants
  simp only [sizeAll_append, sizeAll_cons, sizeAll_nil, Instr.size, Opcode.size, Opcode.arity,
    hd.sizeAll_code, List.length_nil] at s2 s3 k2
  obtain ⟨h, hs, -⟩ := h.patch _ _ _ rfl (by rw [s1, hc.sizeAll_code]) Nat.zero_lt_one h4
  refine ⟨Adds.congr h ?_ ?_ ?_, hs⟩
  · simp only [Chunk.loop, hc.code_eq _ _ _ placeholder]
    simp [k2, k1, s3, s2, s1, Nat.add_assoc]
  · simp [Chunk.loop]
  · simp [Chunk.loop, hc.breaks_eq]

/-- A `for` loop. -/
theorem Grown.each {a1 a2 a3 a4 : Assembly} {binds : Bool} (hc : c.Closed) (hd : d.Closed)
    (he : e.Regular) (h1 : Grown a a1 c)
    (h2 : Adds a1 a2 [⟨.iterRange, [binds.toNat, placeholder]⟩] [] []) (h3 : Grown a2 a3 d)
    (h4 : Adds a3 a4 (e.code a3.constants.size a3.code.size (a3.code.size + e.size + 3) ++
      [⟨.jump, [a1.code.size]⟩]) e.pool [])
    (h5 : (Assemble.patch a1.code.size 1).run a4 = .ok ((), a')) :
    Grown a a' (c.each binds d e) ∧ a'.symbols = a4.symbols := by
  have h := Adds.append h1 (h2.append (Adds.append h3 h4))
  have s1 := h1.size_code hc.regular
  have s2 := h2.size_code
  have s3 := h3.size_code hd.regular
  have s4 := h4.size_code
  have k1 := h1.size_constants
  have k2 := h2.size_constants
  have k3 := h3.size_constants
  simp only [sizeAll_append, sizeAll_cons, sizeAll_nil, Instr.size, Opcode.size, Opcode.arity,
    he.sizeAll_code, List.length_nil] at s2 s4 k2
  obtain ⟨h, hs, -⟩ := h.patch _ _ _ rfl (by rw [s1, hc.sizeAll_code]) Nat.one_lt_two h5
  refine ⟨Adds.congr h ?_ ?_ ?_, hs⟩
  · simp only [Chunk.each, hc.code_eq _ _ _ placeholder, hd.code_eq _ _ _ placeholder]
    simp [k3, k2, k1, s4, s3, s2, s1, Nat.add_assoc]
  · simp [Chunk.each]
  · simp [Chunk.each, hc.breaks_eq, hd.breaks_eq]

/-- The jump of `break`, which its loop remembers. -/
theorem breakJump_adds {l : Loop} {ls : List Loop} (hl : a.loops = l :: ls)
    (h : (do
      let pos ← emit .jump [placeholder]
      modify fun a => match a.loops with
        | [] => a
        | l :: loops => { a with loops := { l with breaks := l.breaks.push pos } :: loops } :
      Assemble Unit).run a = .ok ((), a')) :
    Adds a a' [⟨.jump, [placeholder]⟩] [] [a.code.size] ∧ a'.symbols = a.symbols := by
  obtain ⟨pos, b, hb, h⟩ := run_bind_ok.1 h
  obtain ⟨-, rfl, rfl⟩ := run_emit_ok hb
  simp only [modify, modifyGet, MonadStateOf.modifyGet, StateT.modifyGet, StateT.run, hl] at h
  cases h
  exact ⟨⟨by simp, by simp, by simp [addBreaks, hl], by simp [hl], by simpa using ⟨rfl, by decide⟩⟩, rfl⟩

theorem breakLoop_grown {token : Token} (h : (breakLoop token).run a = .ok ((), a')) :
    Grown a a' (.brk (topIterator a.loops)) ∧ a'.symbols = a.symbols := by
  unfold breakLoop at h
  obtain ⟨_, b, hb, h⟩ := run_bind_ok.1 h
  cases hb
  cases hl : a.loops with
  | nil => rw [hl] at h; cases h
  | cons l ls =>
    simp only [hl] at h
    cases hit : l.hasIterator with
    | true =>
      simp only [hit, ↓reduceIte] at h
      obtain ⟨_, b, hb, h⟩ := run_bind_ok.1 h
      obtain ⟨g1, e1⟩ := Adds.of_put rfl hb
      have hlb : b.loops = l :: ls := by simpa [hl] using g1.loops
      obtain ⟨g2, e2⟩ := breakJump_adds hlb h
      refine ⟨(g1.append g2).congr ?_ ?_ ?_, e2.trans e1⟩
      · simp [Chunk.brk, topIterator, hit]
      · simp [Chunk.brk]
      · simp [Chunk.brk, topIterator, hit, g1.size_code, Instr.size, Opcode.size, Opcode.arity]
    | false =>
      simp only [hit, Bool.false_eq_true, ↓reduceIte] at h
      obtain ⟨g2, e2⟩ := breakJump_adds hl h
      refine ⟨g2.congr ?_ ?_ ?_, e2⟩ <;> simp [Chunk.brk, topIterator, hit]

/-! ### Statements -/

theorem closed_storeChunk (sy : Symbols) (name : String) : (storeChunk sy name).Closed :=
  Chunk.closed_instr _

theorem closed_declChunk (sy : Symbols) (var : Var) (value : Expr) :
    (declChunk sy var value).Closed :=
  (closed_exprChunk sy value).seq (closed_storeChunk sy _)

theorem closed_assignChunk (sy : Symbols) (target value : Expr) :
    (assignChunk sy target value).Closed := by
  refine (closed_exprChunk sy value).seq ?_
  split
  · exact Chunk.closed_instr _
  · exact ((closed_exprChunk sy _).seq (closed_exprChunk sy _)).seq (Chunk.closed_instr _)
  · exact ((closed_exprChunk sy _).seq (Chunk.closed_const _)).seq (Chunk.closed_instr _)
  · exact Chunk.closed_instr _

theorem closed_rangeChunk (sy : Symbols) : (range : Range) → (rangeChunk sy range).Closed
  | .step _ _ _ =>
    (((closed_optionChunk sy _).seq (closed_exprChunk sy _)).seq (closed_optionChunk sy _)).seq
      (Chunk.closed_instr _)
  | .over e => closed_exprChunk sy e

theorem closed_bindChunk (sy : Symbols) : (var : Option Var) → (bindChunk sy var).Closed
  | some _ => closed_storeChunk sy _
  | none => Chunk.closed_empty

mutual

theorem regular_stmtChunk (sy : Symbols) (it : Bool) : (s : Stmt) → (stmtChunk sy it s).Regular
  | .empty .. | .call .. | .ret .. | .func .. | .on .. => by
    rw [stmtChunk]; exact Chunk.closed_empty.regular
  | .typedDecl .. | .inferredDecl .. => by
    rw [stmtChunk]; exact (closed_declChunk sy _ _).regular
  | .assign .. => by rw [stmtChunk]; exact (closed_assignChunk sy _ _).regular
  | .cond _ _ (.mk _ _ test body) more otherwise => by
    rw [stmtChunk]
    exact .arm (closed_exprChunk sy test) (regular_blockChunk sy it body)
      (regular_branchesChunk _ it more (regular_lastChunk _ it otherwise))
  | .loop _ (.mk _ _ test body) => by
    rw [stmtChunk]
    exact ((closed_exprChunk sy test).loop (regular_blockChunk sy false body)).regular
  | .each _ _ var range body => by
    rw [stmtChunk]
    exact ((closed_rangeChunk sy range).each (closed_bindChunk _ var)
      (regular_blockChunk _ true body)).regular
  | .brk .. => by rw [stmtChunk]; exact Chunk.regular_brk it

theorem regular_branchesChunk (sy : Symbols) (it : Bool) {last : Chunk} :
    (bs : List Branch) → last.Regular → (branchesChunk sy it bs last).Regular
  | [], h => by rw [branchesChunk]; exact h
  | .mk _ _ test body :: more, h => by
    rw [branchesChunk]
    exact .arm (closed_exprChunk sy test) (regular_blockChunk sy it body)
      (regular_branchesChunk _ it more h)

theorem regular_lastChunk (sy : Symbols) (it : Bool) : (b : Option Block) → (lastChunk sy it b).Regular
  | none => by rw [lastChunk]; exact Chunk.closed_empty.regular
  | some b => by rw [lastChunk]; exact regular_blockChunk sy it b

theorem regular_blockChunk (sy : Symbols) (it : Bool) : (b : Block) → (blockChunk sy it b).Regular
  | .mk _ _ stmts => by rw [blockChunk]; exact regular_stmtsChunk sy.nest it stmts

theorem regular_stmtsChunk (sy : Symbols) (it : Bool) : (ss : List Stmt) → (stmtsChunk sy it ss).Regular
  | [] => by rw [stmtsChunk]; exact Chunk.closed_empty.regular
  | s :: ss => by
    rw [stmtsChunk]; exact (regular_stmtChunk sy it s).seq (regular_stmtsChunk _ it ss)

end

/-- A statement that is compiled adds its chunk, and gives its variables slots. -/
def StmtEmits (m : Assemble Unit) (chunk : Symbols → Bool → Chunk) (symbols : Symbols → Symbols) :
    Prop :=
  ∀ a a' : Assembly, m.run a = .ok ((), a') →
    Grown a a' (chunk a.symbols (topIterator a.loops)) ∧ a'.symbols = symbols a.symbols

theorem Emits.stmtEmits {m : Assemble Unit} {f : Symbols → Chunk} (h : Emits m f) :
    StmtEmits m (fun sy _ => f sy) id :=
  h

theorem compileStore_grown {name : String}
    (h : (do put .setGlobal [← define name] : Assemble Unit).run a = .ok ((), a')) :
    Grown a a' (storeChunk a.symbols name) ∧ a'.symbols = (a.symbols.define name).2 := by
  obtain ⟨n, b, hb, h⟩ := run_bind_ok.1 h
  obtain ⟨hn, rfl, rfl⟩ := run_define_ok hb
  obtain ⟨g, e⟩ := Adds.of_put rfl h
  exact ⟨⟨g.code, g.constants, g.loops, g.inLoop, g.fits⟩, e⟩

theorem compileDecl_emits (var : Var) (value : Expr) :
    StmtEmits (compileDecl var value) (fun sy _ => declChunk sy var value)
      fun sy => (sy.define var.name).2 := by
  intro a a' h
  obtain ⟨_, b, hb, h⟩ := run_bind_ok.1 h
  obtain ⟨g1, e1⟩ := compileExpr_emits value _ _ hb
  obtain ⟨g2, e2⟩ := compileStore_grown h
  rw [e1] at g2 e2
  exact ⟨g1.seq (closed_exprChunk _ _).regular g2, e2⟩

theorem compileAssign_emits (target value : Expr) :
    Emits (compileAssign target value) (assignChunk · target value) := by
  unfold compileAssign assignChunk
  refine Emits.seq (closed_exprChunk · value) (compileExpr_emits value) ?_
  cases target with
  | var _ name => exact .resolve rfl
  | index _ left key =>
    have := Emits.seq (fun sy => (closed_exprChunk sy left).seq (closed_exprChunk sy key))
      (.seq (closed_exprChunk · _) (compileExpr_emits left) (compileExpr_emits key))
      (.put .setIndex [] rfl)
    simpa only [bind_assoc] using this
  | dot _ left key =>
    have := Emits.seq (fun sy => (closed_exprChunk sy left).seq (Chunk.closed_const _))
      (.seq (closed_exprChunk · _) (compileExpr_emits left) (.emitConstant (.str key)))
      (.put .setIndex [] rfl)
    simpa only [bind_assoc] using this
  | _ => exact .throw

theorem compileRange_emits (range : Range) : Emits (compileRange range) (rangeChunk · range) := by
  cases range with
  | step start stop stride =>
    have := Emits.seq (fun sy => ((closed_optionChunk sy start).seq (closed_exprChunk sy stop)).seq
        (closed_optionChunk sy stride))
      (.seq (fun sy => (closed_optionChunk sy start).seq (closed_exprChunk sy stop))
        (.seq (closed_optionChunk · _) (compileOptional_emits start) (compileExpr_emits stop))
        (compileOptional_emits stride))
      (.put .stepRange [] rfl)
    simpa only [compileRange, rangeChunk, bind_assoc] using this
  | «over» e => exact compileExpr_emits e

theorem compileHead_adds {var : Option Var} (sy : Symbols) {r : Nat} (hsy : a.symbols = sy.nest)
    (h : (compileHead var).run a = .ok (r, a')) :
    ∃ b, Adds a b [⟨.iterRange, [var.isSome.toNat, placeholder]⟩] [] [] ∧
      Grown b a' (bindChunk sy.nest var) ∧ r = a.code.size ∧ a'.symbols = loopSymbols sy var := by
  cases var with
  | some x =>
    obtain ⟨_, b, hb, h⟩ := run_bind_ok.1 h
    obtain ⟨g1, e1, rfl⟩ := Adds.of_emit rfl hb
    obtain ⟨n, b1, hb1, h⟩ := run_bind_ok.1 h
    obtain ⟨_, b2, hb2, h⟩ := run_bind_ok.1 h
    obtain ⟨rfl, rfl⟩ := run_pure_ok.1 h
    obtain ⟨g2, e2⟩ := compileStore_grown (run_bind_ok.2 ⟨n, b1, hb1, hb2⟩)
    rw [e1, hsy] at g2 e2
    exact ⟨b, g1, g2, rfl, e2⟩
  | none =>
    obtain ⟨_, b, hb, h⟩ := run_bind_ok.1 h
    obtain ⟨g1, e1, rfl⟩ := Adds.of_emit rfl hb
    obtain ⟨rfl, rfl⟩ := run_pure_ok.1 h
    exact ⟨_, g1, Adds.refl _, rfl, e1.trans hsy⟩

/-! ### Branches -/

/-- The code of a branch whose jump at the end is still open. -/
def openArm (test body : Chunk) (k p : Nat) : List Instr :=
  test.code k p placeholder ++ ⟨.jumpNotTruthy, [p + test.size + 3 + body.size + 3]⟩ ::
    (body.code (k + test.pool.length) (p + test.size + 3) placeholder ++ [⟨.jump, [placeholder]⟩])

theorem compileBranch_adds {m : Token} {cm : Option String} {test : Expr} {body : Block} {r : Nat}
    (hbody : StmtEmits (compileBlock body) (blockChunk · · body) (blockSymbols · body))
    (h : (compileBranch (.mk m cm test body)).run a = .ok (r, a')) :
    let c := exprChunk a.symbols test
    let d := blockChunk a.symbols (topIterator a.loops) body
    Adds a a' (openArm c d a.constants.size a.code.size) (c.pool ++ d.pool)
        (d.breaks (a.code.size + c.size + 3)) ∧
      r = a.code.size + c.size + 3 + d.size ∧ a'.symbols = blockSymbols a.symbols body := by
  intro c d
  have hc : c.Closed := closed_exprChunk _ _
  have hd : d.Regular := regular_blockChunk _ _ _
  unfold compileBranch at h
  obtain ⟨_, a1, h1, h⟩ := run_bind_ok.1 h
  obtain ⟨g1, e1⟩ := compileExpr_emits test _ _ h1
  obtain ⟨_, a2, h2, h⟩ := run_bind_ok.1 h
  obtain ⟨g2, e2, rfl⟩ := Adds.of_emit rfl h2
  obtain ⟨_, a3, h3, h⟩ := run_bind_ok.1 h
  obtain ⟨g3, e3⟩ := hbody _ _ h3
  rw [g2.topIterator_eq, Adds.topIterator_eq g1, e2, e1] at g3
  obtain ⟨_, a4, h4, h⟩ := run_bind_ok.1 h
  obtain ⟨g4, e4, rfl⟩ := Adds.of_emit rfl h4
  obtain ⟨_, a5, h5, h⟩ := run_bind_ok.1 h
  obtain ⟨rfl, rfl⟩ := run_pure_ok.1 h
  have s1 := g1.size_code hc.regular
  have s2 := g2.size_code
  have s3 := g3.size_code hd
  have s4 := g4.size_code
  have k1 := g1.size_constants
  have k2 := g2.size_constants
  simp only [sizeAll_cons, sizeAll_nil, Instr.size, Opcode.size, Opcode.arity, List.length_nil]
    at s2 s4 k2
  have g := Adds.append g1 (g2.append (Adds.append g3 g4))
  obtain ⟨g, e5, -⟩ := g.patch _ _ _ rfl (by rw [s1, hc.sizeAll_code]) Nat.zero_lt_one h5
  refine ⟨g.congr ?_ ?_ ?_, ?_, ?_⟩
  · simp [openArm, c, d, k2, k1, s4, s3, s2, s1]
  · simp [c, d]
  · simp [c, d, hc.breaks_eq, s2, s1]
  · simp [c, d, s3, s2, s1]
  · rw [e5, e4, e3, e2, e1]

/-- An open branch becomes closed when its jump at the end is patched to the end of what follows. -/
theorem Grown.arm (hc : c.Closed) (hd : d.Regular) (he : e.Regular)
    (h1 : Adds a b (openArm c d a.constants.size a.code.size) (c.pool ++ d.pool)
      (d.breaks (a.code.size + c.size + 3)))
    (h2 : Grown b a' e) (hn : a'.code.size ≤ maxWord) :
    Grown a { a' with
      code := a'.code.patch (a.code.size + c.size + 3 + d.size) 0 a'.code.size } (c.arm d e) := by
  have h := Adds.append h1 h2
  have s1 := h1.size_code
  have s2 := h2.size_code he
  have k1 := h1.size_constants
  simp only [openArm, sizeAll_append, sizeAll_cons, sizeAll_nil, Instr.size, Opcode.size,
    Opcode.arity, hc.sizeAll_code, hd.sizeAll_code, List.length_append] at s1 k1
  have hs : b.code.size = a.code.size + c.size + 3 + d.size + 3 := by omega
  have hr : (Assemble.patch (a.code.size + c.size + 3 + d.size) 0).run a' = .ok ((), { a' with
      code := a'.code.patch (a.code.size + c.size + 3 + d.size) 0 a'.code.size }) := by
    simp [Assemble.patch, here, Nat.not_lt.2 hn]
    rfl
  obtain ⟨h, -, -⟩ := h.patch (c.code a.constants.size a.code.size placeholder ++
    ⟨.jumpNotTruthy, [a.code.size + c.size + 3 + d.size + 3]⟩ ::
      d.code (a.constants.size + c.pool.length) (a.code.size + c.size + 3) placeholder)
    ⟨.jump, [placeholder]⟩ (e.code b.constants.size b.code.size placeholder) (by simp [openArm])
    (by simp [hc.sizeAll_code, hd.sizeAll_code, Instr.size, Opcode.size, Opcode.arity]; omega)
    Nat.zero_lt_one hr
  refine Adds.congr h ?_ ?_ ?_
  · simp [Chunk.arm, s2, hs, k1, Nat.add_assoc]
  · simp [Chunk.arm]
  · simp [Chunk.arm, hs]

/-- The end of a chain of branches: further branches, the last case, and the patches of the jumps at
the ends of the branches. -/
def finishBranches (stops : Array Nat) (more : List Branch) (otherwise : Option Block) :
    Assemble Unit := do
  let stops ← compileBranches stops more
  match otherwise with
  | some block => compileBlock block
  | none => pure ()
  patchAll stops.toList

/-- A chain of branches grows by its chunk, and then has the jumps before it patched. -/
def FinishEmits (more : List Branch) (otherwise : Option Block) : Prop :=
  ∀ (stops : Array Nat) (a a' : Assembly), (∀ s ∈ stops.toList, s + 3 ≤ a.code.size) →
    (finishBranches stops more otherwise).run a = .ok ((), a') →
    ∃ b, Grown a b (branchesChunk a.symbols (topIterator a.loops) more
        (lastChunk (branchesSymbols a.symbols more) (topIterator a.loops) otherwise)) ∧
      b.symbols = lastSymbols (branchesSymbols a.symbols more) otherwise ∧
      (stops.toList ≠ [] → b.code.size ≤ maxWord) ∧
      a' = { b with code := patchEach b.code stops.toList b.code.size }

/-- The end of a chain after its last condition. -/
theorem finishEmits_nil {otherwise : Option Block}
    (hlast : ∀ block, otherwise = some block →
      StmtEmits (compileBlock block) (blockChunk · · block) (blockSymbols · block)) :
    FinishEmits [] otherwise := by
  intro stops a a' _ h
  rw [branchesChunk, branchesSymbols]
  cases otherwise with
  | none =>
    obtain ⟨hcode, hn⟩ := run_patchAll_ok (show (patchAll stops.toList).run a = _ from h)
    rw [lastChunk, lastSymbols]
    exact ⟨a, Adds.refl a, rfl, hn, hcode⟩
  | some block =>
    obtain ⟨_, b, hb, h⟩ := run_bind_ok.1
      (show (compileBlock block >>= fun _ => patchAll stops.toList).run a = _ from h)
    obtain ⟨g, e⟩ := hlast block rfl _ _ hb
    obtain ⟨hcode, hn⟩ := run_patchAll_ok h
    rw [lastChunk, lastSymbols]
    exact ⟨b, g, e, hn, hcode⟩

/-- One more branch before the end of a chain. -/
theorem finishEmits_cons (m : Token) (cm : Option String) (test : Expr) {body : Block}
    {more : List Branch} {otherwise : Option Block}
    (hbody : StmtEmits (compileBlock body) (blockChunk · · body) (blockSymbols · body))
    (hmore : FinishEmits more otherwise) : FinishEmits (.mk m cm test body :: more) otherwise := by
  intro stops a a' hstops h
  have h : (do
      let stop ← compileBranch (.mk m cm test body)
      finishBranches (stops.push stop) more otherwise).run a = .ok ((), a') := by
    simpa only [finishBranches, compileBranches, bind_assoc] using h
  obtain ⟨stop, a1, h1, h⟩ := run_bind_ok.1 h
  obtain ⟨g1, rfl, e1⟩ := compileBranch_adds hbody h1
  have s1 := g1.size_code
  simp only [openArm, sizeAll_append, sizeAll_cons, sizeAll_nil, Instr.size, Opcode.size,
    Opcode.arity, (closed_exprChunk _ _).sizeAll_code, (regular_blockChunk _ _ _).sizeAll_code]
    at s1
  obtain ⟨b, g2, e2, hn, rfl⟩ := hmore _ a1 a' (by
    intro s hs
    rcases List.mem_append.1 (Array.toList_push ▸ hs) with hs | hs
    · have := hstops s hs; omega
    · rw [List.mem_singleton.1 hs]; omega) h
  rw [g1.topIterator_eq, e1] at g2
  rw [e1] at e2
  have hn := hn (by simp)
  have g := Grown.arm (closed_exprChunk _ _) (regular_blockChunk _ _ _)
    (regular_branchesChunk _ _ _ (regular_lastChunk _ _ _)) g1 g2 hn
  rw [branchesChunk, branchesSymbols]
  refine ⟨_, g, e2, fun _ => Nat.le_trans (Nat.le_of_eq size_patch) hn, ?_⟩
  -- the jump of this branch stands after all jumps before the chain, so its patch may come first
  have hcomm := @patchEach_patch b.code stops.toList (a.code.size + (exprChunk a.symbols test).size +
    3 + (blockChunk a.symbols (topIterator a.loops) body).size) b.code.size b.code.size
    fun s hs => by have := hstops s hs; omega
  rw [Array.toList_push, Chunk.patchEach_append]
  simp only [size_patch, ← hcomm]
  rfl

theorem compileBlock_emits_of_stmts {m : Token} {cm : Option String} {stmts : List Stmt}
    (h : StmtEmits (compileStmts stmts) (stmtsChunk · · stmts) (stmtsSymbols · stmts)) :
    StmtEmits (compileBlock (.mk m cm stmts)) (blockChunk · · (.mk m cm stmts))
      (blockSymbols · (.mk m cm stmts)) := by
  intro a a' hrun
  rw [compileBlock] at hrun
  obtain ⟨b, hb, rfl⟩ := run_nested_ok hrun
  obtain ⟨g, e⟩ := h _ _ hb
  simp only [blockChunk, blockSymbols]
  exact ⟨⟨g.code, g.constants, g.loops, g.inLoop, g.fits⟩, congrArg _ e⟩

theorem compileLoop_emits {t m : Token} {cm : Option String} {test : Expr} {body : Block}
    (hbody : StmtEmits (compileBlock body) (blockChunk · · body) (blockSymbols · body)) :
    StmtEmits (compileStmt (.loop t (.mk m cm test body)))
      (stmtChunk · · (.loop t (.mk m cm test body)))
      (stmtSymbols · (.loop t (.mk m cm test body))) := by
  intro a a' h
  simp only [stmtChunk, stmtSymbols]
  rw [compileStmt] at h
  obtain ⟨_, _, h0, h⟩ := run_bind_ok.1 h
  cases h0
  obtain ⟨_, a1, h1, h⟩ := run_bind_ok.1 h
  obtain ⟨g1, e1⟩ := compileExpr_emits test _ _ h1
  obtain ⟨_, a2, h2, h⟩ := run_bind_ok.1 h
  obtain ⟨g2, e2, rfl⟩ := Adds.of_emit rfl h2
  obtain ⟨_, a3, h3, h⟩ := run_bind_ok.1 h
  obtain ⟨g3, e3⟩ := loopBody_adds (blockSymbols a.symbols body)
    (regular_blockChunk a.symbols false body) (fun b hb => by
      rw [← e1, ← e2]; exact hbody _ _ hb) h3
  obtain ⟨g, e4⟩ := Grown.loop (closed_exprChunk _ _) (regular_blockChunk _ _ _) g1 g2 g3 h
  exact ⟨g, e4.trans e3⟩

theorem compileEach_emits {t : Token} {cm : Option String} {var : Option Var} {range : Range}
    {body : Block}
    (hbody : StmtEmits (compileBlock body) (blockChunk · · body) (blockSymbols · body)) :
    StmtEmits (compileStmt (.each t cm var range body)) (stmtChunk · · (.each t cm var range body))
      (stmtSymbols · (.each t cm var range body)) := by
  intro a a' h
  simp only [stmtChunk, stmtSymbols]
  rw [compileStmt] at h
  obtain ⟨_, a1, h1, h⟩ := run_bind_ok.1 h
  obtain ⟨g1, e1⟩ := compileRange_emits range _ _ h1
  obtain ⟨head, a4', h', h⟩ := run_bind_ok.1 h
  obtain ⟨a4, hin, rfl⟩ := run_nested_ok h'
  obtain ⟨_, a3, h3, hin⟩ := run_bind_ok.1 hin
  obtain ⟨a2, g2, g3, rfl, e3⟩ := compileHead_adds a.symbols (by rw [← e1]) h3
  obtain ⟨_, _, h4, hin⟩ := run_bind_ok.1 hin
  obtain ⟨rfl, rfl⟩ := run_pure_ok.1 hin
  obtain ⟨g4, e4⟩ := loopBody_adds (blockSymbols (loopSymbols a.symbols var) body)
    (regular_blockChunk (loopSymbols a.symbols var) true body) (fun b hb => by
      rw [← e3]; exact hbody _ _ hb) h4
  have g2 : Adds a1 a2 _ _ _ := ⟨g2.code, g2.constants, g2.loops, g2.inLoop, g2.fits⟩
  have g4 : Adds a3 { a4 with symbols := a4.symbols.unnest } _ _ _ :=
    ⟨g4.code, g4.constants, g4.loops, g4.inLoop, g4.fits⟩
  obtain ⟨g, e5⟩ := Grown.each (closed_rangeChunk _ _) (closed_bindChunk _ _)
    (regular_blockChunk _ _ _) g1 g2 g3 g4 h
  exact ⟨g, e5.trans (congrArg Symbols.unnest e4)⟩

mutual

theorem compileStmt_emits : (s : Stmt) →
    StmtEmits (compileStmt s) (stmtChunk · · s) (stmtSymbols · s)
  | .empty .. => by
    intro a a' h
    simp only [compileStmt, stmtChunk, stmtSymbols] at h ⊢
    exact Emits.stmtEmits .pure a a' h
  | .typedDecl _ _ var value | .inferredDecl _ _ var value => by
    simp only [compileStmt, stmtChunk, stmtSymbols]
    exact compileDecl_emits var value
  | .assign _ _ target value => by
    simp only [compileStmt, stmtChunk, stmtSymbols]
    exact (compileAssign_emits target value).stmtEmits
  | .cond _ _ (.mk m cm test body) more otherwise => by
    intro a a' h
    have hchain := finishEmits_cons m cm test (compileBlock_emits body)
      (compileFinish_emits more (compileLast_emits otherwise))
    rw [compileStmt] at h
    obtain ⟨b, g, e, -, rfl⟩ := hchain #[] a a' (by simp) (by
      rw [finishBranches, compileBranches, bind_assoc]; exact h)
    simp only [branchesChunk, branchesSymbols] at g e
    simp only [stmtChunk, stmtSymbols]
    exact ⟨g, e⟩
  | .loop _ (.mk _ _ _ body) => compileLoop_emits (compileBlock_emits body)
  | .each _ _ _ _ body => compileEach_emits (compileBlock_emits body)
  | .brk .. => by
    intro a a' h
    simp only [compileStmt, stmtChunk, stmtSymbols] at h ⊢
    exact breakLoop_grown h
  | .call .. | .ret .. | .func .. | .on .. => by
    intro a a' h
    rw [compileStmt] at h
    cases h

theorem compileFinish_emits {otherwise : Option Block} :
    (more : List Branch) → FinishEmits [] otherwise → FinishEmits more otherwise
  | [], h => h
  | .mk m cm test body :: more, h =>
    finishEmits_cons m cm test (compileBlock_emits body) (compileFinish_emits more h)

theorem compileLast_emits : (otherwise : Option Block) → FinishEmits [] otherwise
  | none => finishEmits_nil (by simp)
  | some block => finishEmits_nil (by
    rintro _ ⟨⟩
    exact compileBlock_emits block)

theorem compileBlock_emits : (b : Block) →
    StmtEmits (compileBlock b) (blockChunk · · b) (blockSymbols · b)
  | .mk _ _ stmts => compileBlock_emits_of_stmts (compileStmts_emits stmts)

theorem compileStmts_emits : (ss : List Stmt) →
    StmtEmits (compileStmts ss) (stmtsChunk · · ss) (stmtsSymbols · ss)
  | [] => by
    simp only [compileStmts, stmtsChunk, stmtsSymbols]
    exact Emits.stmtEmits .pure
  | s :: ss => by
    intro a a' h
    simp only [compileStmts, stmtsChunk, stmtsSymbols] at h ⊢
    obtain ⟨_, b, hb, h⟩ := run_bind_ok.1 h
    obtain ⟨g1, e1⟩ := compileStmt_emits s _ _ hb
    obtain ⟨g2, e2⟩ := compileStmts_emits ss _ _ h
    rw [Adds.topIterator_eq g1, e1] at g2
    exact ⟨g1.seq (regular_stmtChunk _ _ _) g2, by rw [e2, e1]⟩

end

/-! ### Programs -/

/-- The code of a whole program. -/
def programChunk (p : Program) : Chunk :=
  stmtsChunk {} false p.stmts

/-- The instructions of a whole program. -/
def programInstrs (p : Program) : List Instr :=
  (programChunk p).code 0 0 placeholder

/-- An assembly holds the instructions of a program, with every jump at its target. -/
structure Holds (a : Assembly) (p : Program) : Prop where
  placed : Placed a.code 0 (programInstrs p)
  size_code : a.code.size = (programChunk p).size
  fits : ∀ i ∈ programInstrs p, i.Fits
  constants : a.constants.toList = (programChunk p).pool
  symbols : a.symbols = stmtsSymbols {} p.stmts
  breaks : (programChunk p).breaks 0 = []

/-- Compiling a program gives the instructions of its chunk. -/
theorem compile_holds {p : Program} (h : ({} : Assembly).compile p = .ok a) : Holds a p := by
  unfold Assembly.compile at h
  cases hrun : (compileStmts p.stmts).run {} with
  | error e => rw [hrun] at h; cases h
  | ok r =>
    obtain ⟨⟨⟩, b⟩ := r
    rw [hrun] at h
    cases h
    obtain ⟨g, e⟩ := compileStmts_emits p.stmts _ _ hrun
    have hcode : a.code = ([] ++ (encodeAll (programInstrs p) ++ [])).toArray := by
      rw [← Array.toList_inj, g.code]; simp [programInstrs, programChunk, topIterator]
    refine ⟨?_, ?_, g.fits, ?_, e, ?_⟩
    · rw [hcode]
      exact .of_encodeAll _ _ g.fits
    · rw [g.size_code (regular_stmtsChunk _ _ _)]
      exact Nat.zero_add _
    · rw [g.constants]
      exact List.nil_append _
    · -- outside of loops `break` has no code
      by_contra hne
      exact g.inLoop hne rfl

end TinyScript.Bytecode
