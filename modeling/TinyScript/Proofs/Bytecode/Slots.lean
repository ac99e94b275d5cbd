import TinyScript.Proofs.Bytecode.Emission

/-!
# Slots that code uses

Names have slots that were handed out (`Symbols.Bounded`), and code reads and writes no others
(`Chunk.SlotsBelow`): a phrase whose compilation succeeds found a slot for every name in it
(`compileExpr_settles`, `compileStmts_settles`). A slot is handed out only if it fits in a word.
-/

namespace TinyScript.Bytecode
open Assemble

/-! ### Names -/

namespace Symbols

/-- Every name has a slot that was handed out. -/
structure Bounded (sy : Symbols) : Prop where
  globals : ∀ {name : String} {slot : Nat}, sy.globals[name]? = some slot → slot < sy.size
  blocks : ∀ block ∈ sy.blocks, ∀ {name : String} {slot : Nat},
    block[name]? = some slot → slot < sy.size

variable {sy : Symbols} {name : String}

theorem bounded_empty : Bounded {} where
  globals h := by simp at h
  blocks _ h := by cases h

theorem Bounded.nest (h : sy.Bounded) : sy.nest.Bounded where
  globals := h.globals
  blocks block hb _ _ hslot := by
    rcases List.mem_cons.1 hb with rfl | hb
    · simp at hslot
    · exact h.blocks block hb hslot

theorem Bounded.unnest (h : sy.Bounded) : sy.unnest.Bounded where
  globals := h.globals
  blocks block hb := h.blocks block (List.mem_of_mem_tail hb)

theorem Bounded.resolve (h : sy.Bounded) {slot : Nat} (hr : sy.resolve? name = some slot) :
    slot < sy.size := by
  rcases Option.or_eq_some_iff.1 hr with hb | ⟨-, hg⟩
  · obtain ⟨block, hmem, hslot⟩ := List.exists_of_findSome?_eq_some hb
    exact h.blocks block hmem hslot
  · exact h.globals hg

/-- A name that is new in its block gets the next slot. -/
theorem lt_size_of_insert {block : Std.HashMap String Nat} {size slot : Nat} {other : String}
    (h : ∀ {name : String} {slot : Nat}, block[name]? = some slot → slot < size)
    (hslot : (block.insert name size)[other]? = some slot) : slot < size + 1 := by
  rw [Std.HashMap.getElem?_insert] at hslot
  split at hslot
  · cases hslot; exact Nat.lt_succ_self _
  · exact Nat.lt_succ_of_lt (h hslot)

/-- What handing out a slot does: either the name had one, or the next one is taken. -/
theorem define_spec (h : sy.Bounded) (name : String) :
    (sy.define name).2.Bounded ∧ (sy.define name).1 < (sy.define name).2.size ∧
      ((sy.define name).2.size = sy.size ∨
        (sy.define name).2.size = sy.size + 1 ∧ (sy.define name).1 = sy.size) := by
  obtain ⟨globals, blocks, size⟩ := sy
  cases blocks with
  | nil =>
    cases hg : globals[name]? with
    | some slot =>
      simp only [define, hg]
      exact ⟨h, h.globals hg, .inl trivial⟩
    | none =>
      simp only [define, hg]
      refine ⟨⟨fun hs => lt_size_of_insert h.globals hs, fun _ hb => by cases hb⟩,
        Nat.lt_succ_self _, .inr ⟨trivial, trivial⟩⟩
  | cons block outer =>
    cases hb : block[name]? with
    | some slot =>
      simp only [define, hb]
      exact ⟨h, h.blocks block List.mem_cons_self hb, .inl trivial⟩
    | none =>
      simp only [define, hb]
      refine ⟨⟨fun hs => Nat.lt_succ_of_lt (h.globals hs), fun b hmem _ _ hs => ?_⟩,
        Nat.lt_succ_self _, .inr ⟨trivial, trivial⟩⟩
      rcases List.mem_cons.1 hmem with rfl | hmem
      · exact lt_size_of_insert (h.blocks block List.mem_cons_self) hs
      · exact Nat.lt_succ_of_lt (h.blocks b (List.mem_cons_of_mem _ hmem) hs)

end Symbols

/-! ### Code -/

namespace Instr

/-- The slot that an instruction uses was handed out. -/
def SlotBelow (i : Instr) (n : Nat) : Prop :=
  i.op = .getGlobal ∨ i.op = .setGlobal → i.operands.headD 0 < n

theorem SlotBelow.mono {i : Instr} {m n : Nat} (h : i.SlotBelow m) (hmn : m ≤ n) : i.SlotBelow n :=
  fun hop => Nat.lt_of_lt_of_le (h hop) hmn

theorem slotBelow_of_ne {i : Instr} {n : Nat} (h1 : i.op ≠ .getGlobal) (h2 : i.op ≠ .setGlobal) :
    i.SlotBelow n := by
  intro hop
  rcases hop with hop | hop
  · exact absurd hop h1
  · exact absurd hop h2

end Instr

namespace Chunk

/-- All slots that the code uses are below `n`. -/
def SlotsBelow (c : Chunk) (n : Nat) : Prop :=
  ∀ k p x, ∀ i ∈ c.code k p x, i.SlotBelow n

variable {c d e : Chunk} {m n : Nat}

theorem SlotsBelow.mono (h : c.SlotsBelow m) (hmn : m ≤ n) : c.SlotsBelow n :=
  fun k p x i hi => (h k p x i hi).mono hmn

theorem slotsBelow_empty : SlotsBelow .empty n := fun _ _ _ _ hi => by cases hi

theorem slotsBelow_instr {i : Instr} (h : i.SlotBelow n) : SlotsBelow (.instr i) n := by
  intro _ _ _ j hj
  rw [List.mem_singleton.1 hj]
  exact h

theorem slotsBelow_const (v : Cell) : SlotsBelow (.const v) n := by
  intro _ _ _ j hj
  rw [List.mem_singleton.1 hj]
  exact Instr.slotBelow_of_ne (by simp) (by simp)

theorem SlotsBelow.seq (hc : c.SlotsBelow n) (hd : d.SlotsBelow n) : (c.seq d).SlotsBelow n :=
  fun k p x => List.forall_mem_append.2 ⟨hc k p x, hd _ _ x⟩

theorem SlotsBelow.andAlso (hc : c.SlotsBelow n) (hd : d.SlotsBelow n) :
    (c.andAlso d).SlotsBelow n := by
  intro k p x
  simp only [Chunk.andAlso, List.forall_mem_append, List.forall_mem_cons]
  exact ⟨hc _ _ _, Instr.slotBelow_of_ne (by simp) (by simp), hd _ _ _,
    Instr.slotBelow_of_ne (by simp) (by simp), Instr.slotBelow_of_ne (by simp) (by simp), by simp⟩

theorem SlotsBelow.orElse (hc : c.SlotsBelow n) (hd : d.SlotsBelow n) :
    (c.orElse d).SlotsBelow n := by
  intro k p x
  simp only [Chunk.orElse, List.forall_mem_append, List.forall_mem_cons]
  exact ⟨hc _ _ _, Instr.slotBelow_of_ne (by simp) (by simp),
    Instr.slotBelow_of_ne (by simp) (by simp), Instr.slotBelow_of_ne (by simp) (by simp), hd _ _ _⟩

theorem SlotsBelow.arm (hc : c.SlotsBelow n) (hd : d.SlotsBelow n) (he : e.SlotsBelow n) :
    (c.arm d e).SlotsBelow n := by
  intro k p x
  simp only [Chunk.arm, List.forall_mem_append, List.forall_mem_cons]
  exact ⟨hc _ _ _, Instr.slotBelow_of_ne (by simp) (by simp), hd _ _ _,
    Instr.slotBelow_of_ne (by simp) (by simp), he _ _ _⟩

theorem SlotsBelow.loop (hc : c.SlotsBelow n) (hd : d.SlotsBelow n) : (c.loop d).SlotsBelow n := by
  intro k p x
  simp only [Chunk.loop, List.forall_mem_append, List.forall_mem_cons]
  exact ⟨hc _ _ _, Instr.slotBelow_of_ne (by simp) (by simp), hd _ _ _,
    Instr.slotBelow_of_ne (by simp) (by simp), by simp⟩

theorem SlotsBelow.each {binds : Bool} (hc : c.SlotsBelow n) (hd : d.SlotsBelow n)
    (he : e.SlotsBelow n) : (c.each binds d e).SlotsBelow n := by
  intro k p x
  simp only [Chunk.each, List.forall_mem_append, List.forall_mem_cons]
  exact ⟨hc _ _ _, Instr.slotBelow_of_ne (by simp) (by simp), hd _ _ _, he _ _ _,
    Instr.slotBelow_of_ne (by simp) (by simp), by simp⟩

theorem slotsBelow_brk (it : Bool) : SlotsBelow (.brk it) n := by
  intro k p x i hi
  cases it with
  | false =>
    rw [List.mem_singleton.1 hi]
    exact Instr.slotBelow_of_ne (by simp) (by simp)
  | true =>
    have hi : i = ⟨.drop, [1]⟩ ∨ i = ⟨.jump, [x]⟩ := by simpa [brk] using hi
    rcases hi with rfl | rfl
    · exact Instr.slotBelow_of_ne (by simp) (by simp)
    · exact Instr.slotBelow_of_ne (by simp) (by simp)

end Chunk

/-! ### What a step hands out -/

/-- Every name has a slot that was handed out, and all slots are words. -/
structure Symbols.Sound (sy : Symbols) : Prop extends Bounded sy where
  size_le : sy.size ≤ maxWord + 1

theorem Symbols.sound_empty : Sound {} := ⟨bounded_empty, Nat.zero_le _⟩

/-- From `sy` to `sy'` slots were handed out, enough of them for the code of a chunk. -/
structure Settled (sy sy' : Symbols) (c : Chunk) : Prop where
  sound : sy'.Sound
  size_le : sy.size ≤ sy'.size
  slots : c.SlotsBelow sy'.size

namespace Settled

variable {sy sy' sy₁ sy₂ : Symbols} {c d e : Chunk}

theorem refl (h : sy.Sound) (hc : c.SlotsBelow sy.size) : Settled sy sy c :=
  ⟨h, Nat.le_refl _, hc⟩

theorem seq (h : Settled sy sy₁ c) (h' : Settled sy₁ sy' d) : Settled sy sy' (c.seq d) where
  sound := h'.sound
  size_le := Nat.le_trans h.size_le h'.size_le
  slots := (h.slots.mono h'.size_le).seq h'.slots

theorem arm (hc : c.SlotsBelow sy.size) (h : Settled sy sy₁ d) (h' : Settled sy₁ sy' e) :
    Settled sy sy' (c.arm d e) where
  sound := h'.sound
  size_le := Nat.le_trans h.size_le h'.size_le
  slots := (hc.mono (Nat.le_trans h.size_le h'.size_le)).arm (h.slots.mono h'.size_le) h'.slots

theorem loop (hc : c.SlotsBelow sy.size) (h : Settled sy sy' d) : Settled sy sy' (c.loop d) where
  sound := h.sound
  size_le := h.size_le
  slots := (hc.mono h.size_le).loop h.slots

theorem each {binds : Bool} (hc : c.SlotsBelow sy.size) (h : Settled sy sy₁ d)
    (h' : Settled sy₁ sy' e) : Settled sy sy' (c.each binds d e) where
  sound := h'.sound
  size_le := Nat.le_trans h.size_le h'.size_le
  slots := (hc.mono (Nat.le_trans h.size_le h'.size_le)).each (h.slots.mono h'.size_le) h'.slots

/-- A block of names of its own around a phrase. -/
theorem nested (h : Settled sy.nest sy' c) : Settled sy sy'.unnest c :=
  ⟨⟨h.sound.toBounded.unnest, h.sound.size_le⟩, h.size_le, h.slots⟩

end Settled

theorem Symbols.Sound.nest {sy : Symbols} (h : sy.Sound) : sy.nest.Sound :=
  ⟨h.toBounded.nest, h.size_le⟩

/-- A variable that is declared gets a slot for the code that stores it. -/
theorem settled_storeChunk {a b : Assembly} {name : String} {r : Nat}
    (h : (define name).run a = .ok (r, b)) (hs : a.symbols.Sound) :
    Settled a.symbols b.symbols (storeChunk a.symbols name) := by
  obtain ⟨hword, rfl, rfl⟩ := run_define_ok h
  obtain ⟨hbounded, hlt, hsize⟩ := Symbols.define_spec hs.toBounded name
  have hle := hs.size_le
  refine ⟨⟨hbounded, ?_⟩, ?_, Chunk.slotsBelow_instr fun _ => hlt⟩
  · show (a.symbols.define name).2.size ≤ _
    omega
  · show a.symbols.size ≤ (a.symbols.define name).2.size
    omega

/-! ### Expressions -/

/-- A step that succeeds adds a chunk, and uses slots that were handed out before. -/
structure Settles (m : Assemble Unit) (chunk : Symbols → Chunk) : Prop where
  emits : Emits m chunk
  slots : ∀ {a a' : Assembly}, m.run a = .ok ((), a') → a.symbols.Bounded →
    (chunk a.symbols).SlotsBelow a.symbols.size

namespace Settles

variable {m n : Assemble Unit} {f g : Symbols → Chunk}

theorem seq (hf : ∀ sy, (f sy).Closed) (hm : Settles m f) (hn : Settles n g) :
    Settles (m >>= fun _ => n) fun sy => (f sy).seq (g sy) where
  emits := .seq hf hm.emits hn.emits
  slots := by
    intro a a' h hb
    obtain ⟨_, b, h1, h2⟩ := run_bind_ok.1 h
    have hsy := (hm.emits a b h1).2
    have h2 := hn.slots h2 (hsy ▸ hb)
    rw [hsy] at h2
    exact (hm.slots h1 hb).seq h2

theorem put {op : Opcode} {ns : List Nat} (h : ns.length = op.arity) (h1 : op ≠ .getGlobal)
    (h2 : op ≠ .setGlobal) : Settles (put op ns) fun _ => .instr ⟨op, ns⟩ where
  emits := .put op ns h
  slots _ _ := Chunk.slotsBelow_instr (Instr.slotBelow_of_ne h1 h2)

theorem putPlain (op : Opcode) (h : ([] : List Nat).length = op.arity) (h1 : op ≠ .getGlobal)
    (h2 : op ≠ .setGlobal) : Settles (Assemble.put op []) fun _ => .instr ⟨op, []⟩ :=
  put h h1 h2

theorem emitConstant (v : Cell) : Settles (emitConstant v) fun _ => .const v where
  emits := .emitConstant v
  slots _ _ := Chunk.slotsBelow_const v

theorem pure : Settles (pure ()) fun _ => .empty where
  emits := .pure
  slots _ _ := Chunk.slotsBelow_empty

theorem throw {err : CompileError} : Settles (throw err) f where
  emits := .throw
  slots h := by cases h

theorem resolve {op : Opcode} {name : String} (h : op.arity = 1) :
    Settles (do Assemble.put op [← Assemble.resolve name]) fun sy =>
      .instr ⟨op, [(sy.resolve? name).getD 0]⟩ where
  emits := .resolve h
  slots := by
    intro a a' hr hb
    obtain ⟨slot, b, h1, -⟩ := run_bind_ok.1 hr
    obtain ⟨hslot, -⟩ := run_resolve_ok h1
    have hlt := hb.resolve hslot
    refine Chunk.slotsBelow_instr fun _ => ?_
    simpa [hslot] using hlt

end Settles

theorem opcodeOf?_ne {op : BinaryOp} {k : Kind} {code : Opcode} (h : opcodeOf? op k = some code) :
    code ≠ .getGlobal ∧ code ≠ .setGlobal := by
  cases op <;> cases k <;> cases h <;> exact ⟨by decide, by decide⟩

/-- The two operands of `and` and `or` are compiled one after the other, whatever stands between. -/
theorem settled_operands {f g : Symbols → Chunk} {m n : Assemble Unit} (hm : Settles m f)
    (hn : Settles n g) {a b c d : Assembly} (h1 : m.run a = .ok ((), b))
    (hbc : c.symbols = b.symbols) (h2 : n.run c = .ok ((), d)) (hb : a.symbols.Bounded) :
    (f a.symbols).SlotsBelow a.symbols.size ∧ (g a.symbols).SlotsBelow a.symbols.size := by
  have hsy : c.symbols = a.symbols := hbc.trans (hm.emits a b h1).2
  have h2 := hn.slots h2 (hsy ▸ hb)
  rw [hsy] at h2
  exact ⟨hm.slots h1 hb, h2⟩

mutual

theorem compileExpr_settles : (e : Expr) → Settles (compileExpr e) (exprChunk · e)
  | .num .. | .str .. => by
    simp only [compileExpr, exprChunk]; exact .emitConstant _
  | .bool _ b => by
    simp only [compileExpr, exprChunk]
    cases b with
    | true => exact .put rfl (by simp) (by simp)
    | false => exact .put rfl (by simp) (by simp)
  | .var .. => by
    simp only [compileExpr, exprChunk]; exact .resolve rfl
  | .array _ _ elems => by
    simp only [compileExpr, exprChunk]
    exact .seq (closed_listChunk · _) (compileList_settles elems) (.put rfl (by simp) (by simp))
  | .map _ _ pairs => by
    simp only [compileExpr, exprChunk]
    exact .seq (closed_pairsChunk · _) (compilePairs_settles pairs) (.put rfl (by simp) (by simp))
  | .unary _ op e => by
    simp only [compileExpr, exprChunk]
    refine .seq (closed_exprChunk · _) (compileExpr_settles e) ?_
    cases op with
    | neg => exact .put rfl (by simp [opcodeOfUnary]) (by simp [opcodeOfUnary])
    | not => exact .put rfl (by simp [opcodeOfUnary]) (by simp [opcodeOfUnary])
  | .binary m op t l r => by
    have hl := compileExpr_settles l
    have hr := compileExpr_settles r
    by_cases h1 : op = .and
    · subst h1
      refine ⟨compileExpr_emits _, fun {a a'} h hb => ?_⟩
      simp only [compileExpr, exprChunk] at h ⊢
      obtain ⟨_, b, hrun, h⟩ := run_bind_ok.1 h
      obtain ⟨_, c, hemit, h⟩ := run_bind_ok.1 h
      obtain ⟨_, d, hrun', -⟩ := run_bind_ok.1 h
      obtain ⟨-, hsy, -⟩ := Adds.of_emit rfl hemit
      obtain ⟨hleft, hright⟩ := settled_operands hl hr hrun hsy hrun' hb
      exact hleft.andAlso hright
    by_cases h2 : op = .or
    · subst h2
      refine ⟨compileExpr_emits _, fun {a a'} h hb => ?_⟩
      simp only [compileExpr, exprChunk] at h ⊢
      obtain ⟨_, a1, hrun, h⟩ := run_bind_ok.1 h
      obtain ⟨_, a2, h2, h⟩ := run_bind_ok.1 h
      obtain ⟨_, a3, h3, h⟩ := run_bind_ok.1 h
      obtain ⟨_, a4, h4, h⟩ := run_bind_ok.1 h
      obtain ⟨_, a5, h5, h⟩ := run_bind_ok.1 h
      obtain ⟨_, a6, hrun', -⟩ := run_bind_ok.1 h
      have hsy : a5.symbols = a1.symbols := by
        rw [(run_patch_ok h5).2]
        show a4.symbols = a1.symbols
        rw [(Adds.of_emit rfl h4).2.1, (Adds.of_put rfl h3).2, (Adds.of_emit rfl h2).2.1]
      obtain ⟨hleft, hright⟩ := settled_operands hl hr hrun hsy hrun' hb
      exact hleft.orElse hright
    rw [compileExpr_binary h1 h2]
    simp only [exprChunk_binary h1 h2]
    have hop : Settles (match opcodeOf? op l.ty.kind with
        | some code => put code []
        | none => unsupported .binaryOperator m.token)
        fun _ => .instr ⟨(opcodeOf? op l.ty.kind).getD .equal, []⟩ := by
      cases hc : opcodeOf? op l.ty.kind with
      | some code => exact .put (arity_opcodeOf? hc).symm (opcodeOf?_ne hc).1 (opcodeOf?_ne hc).2
      | none => exact .throw
    have := Settles.seq (fun sy => (closed_exprChunk sy l).seq (closed_exprChunk sy r))
      (.seq (closed_exprChunk · _) hl hr) hop
    simp only [bind_assoc] at this
    exact this
  | .index _ l k => by
    simp only [compileExpr, exprChunk]
    have := Settles.seq (fun sy => (closed_exprChunk sy l).seq (closed_exprChunk sy k))
      (.seq (closed_exprChunk · _) (compileExpr_settles l) (compileExpr_settles k))
      (.putPlain .index rfl (by simp) (by simp))
    simpa only [bind_assoc] using this
  | .slice _ l x y => by
    simp only [compileExpr, exprChunk]
    have := Settles.seq (fun sy => ((closed_exprChunk sy l).seq (closed_optionChunk sy x)).seq
        (closed_optionChunk sy y))
      (.seq (fun sy => (closed_exprChunk sy l).seq (closed_optionChunk sy x))
        (.seq (closed_exprChunk · _) (compileExpr_settles l) (compileOptional_settles x))
        (compileOptional_settles y))
      (.putPlain .slice rfl (by simp) (by simp))
    simpa only [bind_assoc] using this
  | .dot _ l key => by
    simp only [compileExpr, exprChunk]
    have := Settles.seq (fun sy => (closed_exprChunk sy l).seq (Chunk.closed_const _))
      (.seq (closed_exprChunk · _) (compileExpr_settles l) (.emitConstant (.str key)))
      (.putPlain .index rfl (by simp) (by simp))
    simpa only [bind_assoc] using this
  | .group _ e | .any _ e => by
    simp only [compileExpr, exprChunk]; exact compileExpr_settles e
  | .call .. | .assert .. => by
    simp only [compileExpr]; exact .throw

theorem compileList_settles : (es : List Expr) → Settles (compileList es) (listChunk · es)
  | [] => by simp only [compileList, listChunk]; exact .pure
  | e :: es => by
    simp only [compileList, listChunk]
    exact .seq (closed_exprChunk · _) (compileExpr_settles e) (compileList_settles es)

theorem compilePairs_settles : (ps : List (String × Expr)) →
    Settles (compilePairs ps) (pairsChunk · ps)
  | [] => by simp only [compilePairs, pairsChunk]; exact .pure
  | (key, e) :: ps => by
    simp only [compilePairs, pairsChunk]
    have := Settles.seq (fun sy => (Chunk.closed_const _).seq (closed_exprChunk sy e))
      (.seq (fun _ => Chunk.closed_const _) (.emitConstant (.str key)) (compileExpr_settles e))
      (compilePairs_settles ps)
    simpa only [bind_assoc] using this

theorem compileOptional_settles : (e : Option Expr) →
    Settles (compileOptional e) (optionChunk · e)
  | some e => by simp only [compileOptional, optionChunk]; exact compileExpr_settles e
  | none => by simp only [compileOptional, optionChunk]; exact .put rfl (by simp) (by simp)

end

/-! ### Statements -/

/-- A statement that is compiled adds its chunk, and is given the slots that it needs. -/
structure StmtSettles (m : Assemble Unit) (chunk : Symbols → Bool → Chunk)
    (symbols : Symbols → Symbols) : Prop where
  emits : StmtEmits m chunk symbols
  settled : ∀ {a a' : Assembly}, m.run a = .ok ((), a') → a.symbols.Sound →
    Settled a.symbols a'.symbols (chunk a.symbols (topIterator a.loops))

theorem Settles.stmtSettles {m : Assemble Unit} {f : Symbols → Chunk} (h : Settles m f) :
    StmtSettles m (fun sy _ => f sy) id where
  emits := h.emits.stmtEmits
  settled := by
    intro a a' hrun hs
    rw [(h.emits a a' hrun).2]
    exact .refl hs (h.slots hrun hs.toBounded)

theorem compileDecl_settles (var : Var) (value : Expr) :
    StmtSettles (compileDecl var value) (fun sy _ => declChunk sy var value)
      fun sy => (sy.define var.name).2 where
  emits := compileDecl_emits var value
  settled := by
    intro a a' h hs
    obtain ⟨_, b, hvalue, h⟩ := run_bind_ok.1 h
    obtain ⟨_, c, hdefine, hput⟩ := run_bind_ok.1 h
    have hsy := ((compileExpr_settles value).emits a b hvalue).2
    have hstore := settled_storeChunk hdefine (hsy ▸ hs)
    rw [hsy] at hstore
    rw [(Adds.of_put rfl hput).2]
    exact (Settled.refl hs ((compileExpr_settles value).slots hvalue hs.toBounded)).seq hstore

theorem compileAssign_settles (target value : Expr) :
    Settles (compileAssign target value) (assignChunk · target value) := by
  unfold compileAssign assignChunk
  refine Settles.seq (closed_exprChunk · value) (compileExpr_settles value) ?_
  cases target with
  | var _ name => exact .resolve rfl
  | index _ left key =>
    have := Settles.seq (fun sy => (closed_exprChunk sy left).seq (closed_exprChunk sy key))
      (.seq (closed_exprChunk · _) (compileExpr_settles left) (compileExpr_settles key))
      (.putPlain .setIndex rfl (by simp) (by simp))
    simpa only [bind_assoc] using this
  | dot _ left key =>
    have := Settles.seq (fun sy => (closed_exprChunk sy left).seq (Chunk.closed_const _))
      (.seq (closed_exprChunk · _) (compileExpr_settles left) (.emitConstant (.str key)))
      (.putPlain .setIndex rfl (by simp) (by simp))
    simpa only [bind_assoc] using this
  | _ => exact .throw

theorem compileRange_settles (range : Range) :
    Settles (compileRange range) (rangeChunk · range) := by
  cases range with
  | step start stop stride =>
    have := Settles.seq (fun sy => ((closed_optionChunk sy start).seq (closed_exprChunk sy stop)).seq
        (closed_optionChunk sy stride))
      (.seq (fun sy => (closed_optionChunk sy start).seq (closed_exprChunk sy stop))
        (.seq (closed_optionChunk · _) (compileOptional_settles start) (compileExpr_settles stop))
        (compileOptional_settles stride))
      (.putPlain .stepRange rfl (by simp) (by simp))
    simpa only [compileRange, rangeChunk, bind_assoc] using this
  | «over» e => exact compileExpr_settles e

/-- Compilation of a block hands out the slots for the code of the block. -/
abbrev BlockSettles (body : Block) : Prop :=
  StmtSettles (compileBlock body) (blockChunk · · body) (blockSymbols · body)

theorem compileBranch_settled {a a' : Assembly} {m : Token} {cm : Option String} {test : Expr}
    {body : Block} {r : Nat} (hbody : BlockSettles body)
    (h : (compileBranch (.mk m cm test body)).run a = .ok (r, a')) (hs : a.symbols.Sound) :
    (exprChunk a.symbols test).SlotsBelow a.symbols.size ∧
      Settled a.symbols a'.symbols (blockChunk a.symbols (topIterator a.loops) body) := by
  unfold compileBranch at h
  obtain ⟨_, a1, h1, h⟩ := run_bind_ok.1 h
  obtain ⟨g1, e1⟩ := (compileExpr_settles test).emits a a1 h1
  obtain ⟨_, a2, h2, h⟩ := run_bind_ok.1 h
  obtain ⟨g2, e2, -⟩ := Adds.of_emit rfl h2
  obtain ⟨_, a3, h3, h⟩ := run_bind_ok.1 h
  obtain ⟨_, a4, h4, h⟩ := run_bind_ok.1 h
  obtain ⟨_, a5, h5, h⟩ := run_bind_ok.1 h
  obtain ⟨-, rfl⟩ := run_pure_ok.1 h
  have hsy : a2.symbols = a.symbols := e2.trans e1
  have hloops : topIterator a2.loops = topIterator a.loops :=
    g2.topIterator_eq.trans (Adds.topIterator_eq g1)
  have hsettled := hbody.settled h3 (hsy ▸ hs)
  rw [hsy, hloops] at hsettled
  have hend : a'.symbols = a3.symbols := by
    rw [(run_patch_ok h5).2]
    exact (Adds.of_emit rfl h4).2.1
  exact ⟨(compileExpr_settles test).slots h1 hs.toBounded, hend ▸ hsettled⟩

/-- The end of a chain of branches hands out the slots for its code. -/
def FinishSettles (more : List Branch) (otherwise : Option Block) : Prop :=
  ∀ (stops : Array Nat) (a a' : Assembly),
    (finishBranches stops more otherwise).run a = .ok ((), a') → a.symbols.Sound →
    Settled a.symbols a'.symbols (branchesChunk a.symbols (topIterator a.loops) more
      (lastChunk (branchesSymbols a.symbols more) (topIterator a.loops) otherwise))

theorem finishSettles_nil {otherwise : Option Block}
    (hlast : ∀ block, otherwise = some block → BlockSettles block) :
    FinishSettles [] otherwise := by
  intro stops a a' h hs
  rw [branchesChunk, branchesSymbols]
  cases otherwise with
  | none =>
    obtain ⟨rfl, -⟩ := run_patchAll_ok (show (patchAll stops.toList).run a = _ from h)
    rw [lastChunk]
    exact .refl hs Chunk.slotsBelow_empty
  | some block =>
    obtain ⟨_, b, hb, h⟩ := run_bind_ok.1
      (show (compileBlock block >>= fun _ => patchAll stops.toList).run a = _ from h)
    obtain ⟨rfl, -⟩ := run_patchAll_ok h
    rw [lastChunk]
    have hsettled := (hlast block rfl).settled hb hs
    exact hsettled

theorem finishSettles_cons (m : Token) (cm : Option String) (test : Expr) {body : Block}
    {more : List Branch} {otherwise : Option Block} (hbody : BlockSettles body)
    (hmore : FinishSettles more otherwise) :
    FinishSettles (.mk m cm test body :: more) otherwise := by
  intro stops a a' h hs
  have h : (do
      let stop ← compileBranch (.mk m cm test body)
      finishBranches (stops.push stop) more otherwise).run a = .ok ((), a') := by
    simpa only [finishBranches, compileBranches, bind_assoc] using h
  obtain ⟨stop, b, hbranch, h⟩ := run_bind_ok.1 h
  obtain ⟨htest, hsettled⟩ := compileBranch_settled hbody hbranch hs
  obtain ⟨g, -, e⟩ := compileBranch_adds hbody.emits hbranch
  have hrest := hmore _ b a' h hsettled.sound
  rw [g.topIterator_eq, e] at hrest
  rw [e] at hsettled
  rw [branchesChunk, branchesSymbols]
  exact .arm htest hsettled hrest

theorem compileBlock_settles_of_stmts {m : Token} {cm : Option String} {stmts : List Stmt}
    (h : StmtSettles (compileStmts stmts) (stmtsChunk · · stmts) (stmtsSymbols · stmts)) :
    BlockSettles (.mk m cm stmts) where
  emits := compileBlock_emits_of_stmts h.emits
  settled := by
    intro a a' hrun hs
    rw [compileBlock] at hrun
    obtain ⟨b, hb, rfl⟩ := run_nested_ok hrun
    rw [blockChunk]
    exact (h.settled hb hs.nest).nested

/-- The body of a loop, in which the loop is the innermost one. -/
theorem loopBody_settled {a a' : Assembly} {start : Nat} {it : Bool} {body : Block}
    (hbody : BlockSettles body) (h : (loopBody start it (compileBlock body)).run a = .ok ((), a'))
    (hs : a.symbols.Sound) : Settled a.symbols a'.symbols (blockChunk a.symbols it body) := by
  obtain ⟨_, a1, h1, h⟩ := run_bind_ok.1 h
  cases h1
  obtain ⟨_, a2, h2, h⟩ := run_bind_ok.1 h
  obtain ⟨breaks, a3, h3, h⟩ := run_bind_ok.1 h
  obtain ⟨_, a4, h4, h⟩ := run_bind_ok.1 h
  have hpop : a3.symbols = a2.symbols := by
    simp only [modifyGet, MonadStateOf.modifyGet, StateT.modifyGet, StateT.run] at h3
    cases hl : a2.loops with
    | nil => rw [hl] at h3; cases h3; rfl
    | cons l ls => rw [hl] at h3; cases h3; rfl
  have hend : a'.symbols = a2.symbols := by
    rw [(run_patchAll_ok h).1]
    show a4.symbols = a2.symbols
    rw [(Adds.of_put rfl h4).2, hpop]
  rw [hend]
  exact hbody.settled h2 hs

theorem compileLoop_settles {t m : Token} {cm : Option String} {test : Expr} {body : Block}
    (hbody : BlockSettles body) :
    StmtSettles (compileStmt (.loop t (.mk m cm test body)))
      (stmtChunk · · (.loop t (.mk m cm test body)))
      (stmtSymbols · (.loop t (.mk m cm test body))) where
  emits := compileLoop_emits hbody.emits
  settled := by
    intro a a' h hs
    rw [compileStmt] at h
    simp only [stmtChunk]
    obtain ⟨_, _, h0, h⟩ := run_bind_ok.1 h
    cases h0
    obtain ⟨_, a1, h1, h⟩ := run_bind_ok.1 h
    obtain ⟨_, a2, h2, h⟩ := run_bind_ok.1 h
    obtain ⟨_, a3, h3, h4⟩ := run_bind_ok.1 h
    have hsy : a2.symbols = a.symbols :=
      (Adds.of_emit rfl h2).2.1.trans ((compileExpr_settles test).emits a a1 h1).2
    have hloop := loopBody_settled hbody h3 (hsy ▸ hs)
    rw [hsy] at hloop
    have hend : a'.symbols = a3.symbols := by rw [(run_patch_ok h4).2]
    rw [hend]
    exact .loop ((compileExpr_settles test).slots h1 hs.toBounded) hloop

theorem compileHead_settled {a a' : Assembly} {var : Option Var} {r : Nat}
    (h : (compileHead var).run a = .ok (r, a')) (hs : a.symbols.Sound) :
    Settled a.symbols a'.symbols (bindChunk a.symbols var) := by
  cases var with
  | some x =>
    obtain ⟨_, b, hb, h⟩ := run_bind_ok.1 h
    have hsy := (Adds.of_emit rfl hb).2.1
    obtain ⟨_, b1, hdefine, h⟩ := run_bind_ok.1 h
    obtain ⟨_, b2, hput, h⟩ := run_bind_ok.1 h
    obtain ⟨-, rfl⟩ := run_pure_ok.1 h
    have hstore := settled_storeChunk hdefine (hsy ▸ hs)
    rw [hsy] at hstore
    rw [(Adds.of_put rfl hput).2]
    exact hstore
  | none =>
    obtain ⟨_, b, hb, h⟩ := run_bind_ok.1 h
    have hsy := (Adds.of_emit rfl hb).2.1
    obtain ⟨-, rfl⟩ := run_pure_ok.1 h
    rw [hsy]
    exact .refl hs Chunk.slotsBelow_empty

theorem compileEach_settles {t : Token} {cm : Option String} {var : Option Var} {range : Range}
    {body : Block} (hbody : BlockSettles body) :
    StmtSettles (compileStmt (.each t cm var range body)) (stmtChunk · · (.each t cm var range body))
      (stmtSymbols · (.each t cm var range body)) where
  emits := compileEach_emits hbody.emits
  settled := by
    intro a a' h hs
    rw [compileStmt] at h
    simp only [stmtChunk]
    obtain ⟨_, a1, h1, h⟩ := run_bind_ok.1 h
    have e1 := ((compileRange_settles range).emits a a1 h1).2
    obtain ⟨_, a5, h5, h6⟩ := run_bind_ok.1 h
    obtain ⟨a4, hin, rfl⟩ := run_nested_ok h5
    obtain ⟨_, a3, h3, hin⟩ := run_bind_ok.1 hin
    obtain ⟨_, a4', h4, hin⟩ := run_bind_ok.1 hin
    obtain ⟨-, rfl⟩ := run_pure_ok.1 hin
    have hnest : a1.symbols.nest = a.symbols.nest := congrArg _ e1
    have hhead := compileHead_settled h3 (show a1.symbols.nest.Sound from hnest ▸ hs.nest)
    obtain ⟨_, -, -, -, e3⟩ := compileHead_adds a.symbols hnest h3
    have hloop := loopBody_settled hbody h4 hhead.sound
    have hhead : Settled a.symbols.nest a3.symbols (bindChunk a.symbols.nest var) := by
      rw [← hnest]; exact hhead
    rw [e3] at hloop hhead
    have hend : a'.symbols = a4.symbols.unnest := by rw [(run_patch_ok h6).2]
    rw [hend]
    have hrange := (compileRange_settles range).slots h1 hs.toBounded
    exact Settled.nested (.each hrange hhead hloop)

mutual

theorem compileStmt_settles : (s : Stmt) →
    StmtSettles (compileStmt s) (stmtChunk · · s) (stmtSymbols · s)
  | .empty .. => by
    refine ⟨compileStmt_emits _, fun {a a'} h hs => ?_⟩
    simp only [compileStmt, stmtChunk] at h ⊢
    exact Settles.pure.stmtSettles.settled h hs
  | .typedDecl _ _ var value | .inferredDecl _ _ var value => by
    simp only [compileStmt, stmtChunk, stmtSymbols]
    exact compileDecl_settles var value
  | .assign _ _ target value => by
    simp only [compileStmt, stmtChunk, stmtSymbols]
    exact (compileAssign_settles target value).stmtSettles
  | .cond _ _ (.mk m cm test body) more otherwise => by
    refine ⟨compileStmt_emits _, fun {a a'} h hs => ?_⟩
    have hchain := finishSettles_cons m cm test (compileBlock_settles body)
      (compileFinish_settles more (compileLast_settles otherwise))
    rw [compileStmt] at h
    have hsettled := hchain #[] a a' (by
      rw [finishBranches, compileBranches, bind_assoc]; exact h) hs
    simp only [branchesChunk, branchesSymbols] at hsettled
    simp only [stmtChunk]
    exact hsettled
  | .loop _ (.mk _ _ _ body) => compileLoop_settles (compileBlock_settles body)
  | .each _ _ _ _ body => compileEach_settles (compileBlock_settles body)
  | .brk .. => by
    refine ⟨compileStmt_emits _, fun {a a'} h hs => ?_⟩
    simp only [compileStmt, stmtChunk] at h ⊢
    rw [(breakLoop_grown h).2]
    exact .refl hs (Chunk.slotsBelow_brk _)
  | .call .. | .ret .. | .func .. | .on .. => by
    refine ⟨compileStmt_emits _, fun {a a'} h hs => ?_⟩
    rw [compileStmt] at h
    cases h

theorem compileFinish_settles {otherwise : Option Block} :
    (more : List Branch) → FinishSettles [] otherwise → FinishSettles more otherwise
  | [], h => h
  | .mk m cm test body :: more, h =>
    finishSettles_cons m cm test (compileBlock_settles body) (compileFinish_settles more h)

theorem compileLast_settles : (otherwise : Option Block) → FinishSettles [] otherwise
  | none => finishSettles_nil (by simp)
  | some block => finishSettles_nil (by
    rintro _ ⟨⟩
    exact compileBlock_settles block)

theorem compileBlock_settles : (b : Block) → BlockSettles b
  | .mk _ _ stmts => compileBlock_settles_of_stmts (compileStmts_settles stmts)

theorem compileStmts_settles : (ss : List Stmt) →
    StmtSettles (compileStmts ss) (stmtsChunk · · ss) (stmtsSymbols · ss)
  | [] => by
    simp only [compileStmts, stmtsChunk, stmtsSymbols]
    exact Settles.pure.stmtSettles
  | s :: ss => by
    refine ⟨compileStmts_emits _, fun {a a'} h hs => ?_⟩
    simp only [compileStmts, stmtsChunk] at h ⊢
    obtain ⟨_, b, hb, h⟩ := run_bind_ok.1 h
    obtain ⟨g, e⟩ := (compileStmt_settles s).emits a b hb
    have hfirst := (compileStmt_settles s).settled hb hs
    have hrest := (compileStmts_settles ss).settled h hfirst.sound
    rw [Adds.topIterator_eq g, e] at hrest
    rw [e] at hfirst
    exact hfirst.seq hrest

end

end TinyScript.Bytecode
