import TinyScript.Proofs.Bytecode.Slots
import TinyScript.Proofs.Bytecode.StackDiscipline

/-!
# Decoding compiled code

Code that was compiled from any number of programs, one after the other, decodes into whole
instructions up to its end (`compile_wellFormed`): jumps lead to instructions or to the end, and
constants and slots that are used exist. `Assembly.Listed` gives the instructions of the code so far,
each program adds those of its chunk (`Assembly.Listed.compile`).
-/

namespace TinyScript.Bytecode
open Assemble

/-! ### Places -/

namespace Chunk

/-- The spots of a chunk are the places of its instructions. -/
def Spotted (c : Chunk) : Prop :=
  ∀ k p x h, (c.spots p h).map Prod.fst = (listing p (c.code k p x)).map Prod.fst

variable {c d e : Chunk}

theorem spotted_empty : Spotted .empty := fun _ _ _ _ => rfl

theorem spotted_instr (i : Instr) : Spotted (.instr i) := fun _ _ _ _ => rfl

theorem spotted_const (v : Cell) : Spotted (.const v) := fun _ _ _ _ => rfl

theorem spotted_brk (it : Bool) : Spotted (.brk it) := by
  intro k p x h
  cases it with
  | false => rfl
  | true => rfl

theorem Spotted.seq (hr : c.Regular) (hc : c.Spotted) (hd : d.Spotted) : (c.seq d).Spotted := by
  intro k p x h
  simp only [Chunk.seq, listing_append, List.map_append, hr.sizeAll_code]
  rw [hc k p x h, hd (k + c.pool.length) (p + c.size) x (c.after h)]

theorem Spotted.andAlso (hr : c.Closed) (hr' : d.Closed) (hc : c.Spotted) (hd : d.Spotted) :
    (c.andAlso d).Spotted := by
  intro k p x h
  simp only [Chunk.andAlso, listing_append, listing, List.map_append, List.map_cons,
    hr.sizeAll_code, hr'.sizeAll_code, Instr.size, Opcode.size, Opcode.arity]
  rw [hc k p x h, hd (k + c.pool.length) (p + c.size + 3) x h]
  rfl

theorem Spotted.orElse (hr : c.Closed) (hc : c.Spotted) (hd : d.Spotted) :
    (c.orElse d).Spotted := by
  intro k p x h
  simp only [Chunk.orElse, listing_append, listing, List.map_append, List.map_cons,
    hr.sizeAll_code, Instr.size, Opcode.size, Opcode.arity]
  rw [hc k p x h, hd (k + c.pool.length) (p + c.size + 7) x h]

theorem Spotted.arm (hr : c.Closed) (hr' : d.Regular) (hc : c.Spotted) (hd : d.Spotted)
    (he : e.Spotted) : (c.arm d e).Spotted := by
  intro k p x h
  simp only [Chunk.arm, listing_append, listing, List.map_append, List.map_cons,
    hr.sizeAll_code, hr'.sizeAll_code, Instr.size, Opcode.size, Opcode.arity]
  rw [hc k p x h, hd (k + c.pool.length) (p + c.size + 3) x h,
    he (k + c.pool.length + d.pool.length) (p + c.size + 3 + d.size + 3) x h]

theorem Spotted.loop (hr : c.Closed) (hr' : d.Regular) (hc : c.Spotted) (hd : d.Spotted) :
    (c.loop d).Spotted := by
  intro k p x h
  simp only [Chunk.loop, listing_append, listing, List.map_append, List.map_cons,
    hr.sizeAll_code, hr'.sizeAll_code, Instr.size, Opcode.size, Opcode.arity]
  rw [hc k p _ h, hd (k + c.pool.length) (p + c.size + 3) _ h]
  rfl

theorem Spotted.each {binds : Bool} (hr : c.Closed) (hr' : d.Closed) (hr'' : e.Regular)
    (hc : c.Spotted) (hd : d.Spotted) (he : e.Spotted) : (c.each binds d e).Spotted := by
  intro k p x h
  simp only [Chunk.each, listing_append, listing, List.map_append, List.map_cons,
    hr.sizeAll_code, hr'.sizeAll_code, hr''.sizeAll_code, Instr.size, Opcode.size, Opcode.arity]
  rw [hc k p _ h, hd (k + c.pool.length) (p + c.size + 5) _ (h + 1 + binds.toNat),
    he (k + c.pool.length + d.pool.length) (p + c.size + 5 + d.size) _ (h + 1)]
  rfl

end Chunk

mutual

theorem spotted_exprChunk (sy : Symbols) : (e : Expr) → (exprChunk sy e).Spotted
  | .num .. | .str .. => by rw [exprChunk]; exact Chunk.spotted_const _
  | .bool .. | .var .. | .call .. | .assert .. => by
    rw [exprChunk]; exact Chunk.spotted_instr _
  | .array _ _ es => by
    rw [exprChunk]
    exact .seq (closed_listChunk sy es).regular (spotted_listChunk sy es) (Chunk.spotted_instr _)
  | .map _ _ ps => by
    rw [exprChunk]
    exact .seq (closed_pairsChunk sy ps).regular (spotted_pairsChunk sy ps) (Chunk.spotted_instr _)
  | .unary _ _ e => by
    rw [exprChunk]
    exact .seq (closed_exprChunk sy e).regular (spotted_exprChunk sy e) (Chunk.spotted_instr _)
  | .binary _ op _ l r => by
    have hl := spotted_exprChunk sy l
    have hr := spotted_exprChunk sy r
    have cl := closed_exprChunk sy l
    have cr := closed_exprChunk sy r
    by_cases h1 : op = .and
    · subst h1; rw [exprChunk]; exact .andAlso cl cr hl hr
    by_cases h2 : op = .or
    · subst h2; rw [exprChunk]; exact .orElse cl hl hr
    rw [exprChunk_binary h1 h2]
    exact .seq (cl.seq cr).regular (.seq cl.regular hl hr) (Chunk.spotted_instr _)
  | .index _ l k => by
    rw [exprChunk]
    exact .seq ((closed_exprChunk sy l).seq (closed_exprChunk sy k)).regular
      (.seq (closed_exprChunk sy l).regular (spotted_exprChunk sy l) (spotted_exprChunk sy k))
      (Chunk.spotted_instr _)
  | .slice _ l x y => by
    rw [exprChunk]
    exact .seq (((closed_exprChunk sy l).seq (closed_optionChunk sy x)).seq
        (closed_optionChunk sy y)).regular
      (.seq ((closed_exprChunk sy l).seq (closed_optionChunk sy x)).regular
        (.seq (closed_exprChunk sy l).regular (spotted_exprChunk sy l) (spotted_optionChunk sy x))
        (spotted_optionChunk sy y)) (Chunk.spotted_instr _)
  | .dot _ l _ => by
    rw [exprChunk]
    exact .seq ((closed_exprChunk sy l).seq (Chunk.closed_const _)).regular
      (.seq (closed_exprChunk sy l).regular (spotted_exprChunk sy l) (Chunk.spotted_const _))
      (Chunk.spotted_instr _)
  | .group _ e | .any _ e => by rw [exprChunk]; exact spotted_exprChunk sy e

theorem spotted_listChunk (sy : Symbols) : (es : List Expr) → (listChunk sy es).Spotted
  | [] => by rw [listChunk]; exact Chunk.spotted_empty
  | e :: es => by
    rw [listChunk]
    exact .seq (closed_exprChunk sy e).regular (spotted_exprChunk sy e) (spotted_listChunk sy es)

theorem spotted_pairsChunk (sy : Symbols) : (ps : List (String × Expr)) → (pairsChunk sy ps).Spotted
  | [] => by rw [pairsChunk]; exact Chunk.spotted_empty
  | (_, e) :: ps => by
    rw [pairsChunk]
    exact .seq ((Chunk.closed_const _).seq (closed_exprChunk sy e)).regular
      (.seq (Chunk.closed_const _).regular (Chunk.spotted_const _) (spotted_exprChunk sy e))
      (spotted_pairsChunk sy ps)

theorem spotted_optionChunk (sy : Symbols) : (e : Option Expr) → (optionChunk sy e).Spotted
  | some e => by rw [optionChunk]; exact spotted_exprChunk sy e
  | none => by rw [optionChunk]; exact Chunk.spotted_instr _

end

theorem spotted_declChunk (sy : Symbols) (var : Var) (value : Expr) :
    (declChunk sy var value).Spotted :=
  .seq (closed_exprChunk sy value).regular (spotted_exprChunk sy value) (Chunk.spotted_instr _)

theorem spotted_assignChunk (sy : Symbols) (target value : Expr) :
    (assignChunk sy target value).Spotted := by
  refine .seq (closed_exprChunk sy value).regular (spotted_exprChunk sy value) ?_
  split
  · exact Chunk.spotted_instr _
  · next left key =>
    exact .seq ((closed_exprChunk sy left).seq (closed_exprChunk sy key)).regular
      (.seq (closed_exprChunk sy left).regular (spotted_exprChunk sy left) (spotted_exprChunk sy key))
      (Chunk.spotted_instr _)
  · next left key =>
    exact .seq ((closed_exprChunk sy left).seq (Chunk.closed_const _)).regular
      (.seq (closed_exprChunk sy left).regular (spotted_exprChunk sy left) (Chunk.spotted_const _))
      (Chunk.spotted_instr _)
  · exact Chunk.spotted_instr _

theorem spotted_rangeChunk (sy : Symbols) : (range : Range) → (rangeChunk sy range).Spotted
  | .step start stop stride =>
    .seq (((closed_optionChunk sy start).seq (closed_exprChunk sy stop)).seq
        (closed_optionChunk sy stride)).regular
      (.seq ((closed_optionChunk sy start).seq (closed_exprChunk sy stop)).regular
        (.seq (closed_optionChunk sy start).regular (spotted_optionChunk sy start)
          (spotted_exprChunk sy stop)) (spotted_optionChunk sy stride)) (Chunk.spotted_instr _)
  | .over e => spotted_exprChunk sy e

theorem spotted_bindChunk (sy : Symbols) : (var : Option Var) → (bindChunk sy var).Spotted
  | some _ => Chunk.spotted_instr _
  | none => Chunk.spotted_empty

mutual

theorem spotted_stmtChunk (sy : Symbols) (it : Bool) : (s : Stmt) → (stmtChunk sy it s).Spotted
  | .empty .. | .call .. | .ret .. | .func .. | .on .. => by
    rw [stmtChunk]; exact Chunk.spotted_empty
  | .typedDecl .. | .inferredDecl .. => by rw [stmtChunk]; exact spotted_declChunk sy _ _
  | .assign .. => by rw [stmtChunk]; exact spotted_assignChunk sy _ _
  | .cond _ _ (.mk _ _ test body) more otherwise => by
    rw [stmtChunk]
    exact .arm (closed_exprChunk sy test) (regular_blockChunk sy it body) (spotted_exprChunk sy test)
      (spotted_blockChunk sy it body)
      (spotted_branchesChunk _ it more (spotted_lastChunk _ it otherwise))
  | .loop _ (.mk _ _ test body) => by
    rw [stmtChunk]
    exact .loop (closed_exprChunk sy test) (regular_blockChunk sy false body)
      (spotted_exprChunk sy test) (spotted_blockChunk sy false body)
  | .each _ _ var range body => by
    rw [stmtChunk]
    exact .each (closed_rangeChunk sy range) (closed_bindChunk _ var) (regular_blockChunk _ true body)
      (spotted_rangeChunk sy range) (spotted_bindChunk _ var) (spotted_blockChunk _ true body)
  | .brk .. => by rw [stmtChunk]; exact Chunk.spotted_brk it

theorem spotted_branchesChunk (sy : Symbols) (it : Bool) {last : Chunk} :
    (bs : List Branch) → last.Spotted → (branchesChunk sy it bs last).Spotted
  | [], h => by rw [branchesChunk]; exact h
  | .mk _ _ test body :: more, h => by
    rw [branchesChunk]
    exact .arm (closed_exprChunk sy test) (regular_blockChunk sy it body) (spotted_exprChunk sy test)
      (spotted_blockChunk sy it body) (spotted_branchesChunk _ it more h)

theorem spotted_lastChunk (sy : Symbols) (it : Bool) : (b : Option Block) →
    (lastChunk sy it b).Spotted
  | none => by rw [lastChunk]; exact Chunk.spotted_empty
  | some b => by rw [lastChunk]; exact spotted_blockChunk sy it b

theorem spotted_blockChunk (sy : Symbols) (it : Bool) : (b : Block) → (blockChunk sy it b).Spotted
  | .mk _ _ stmts => by rw [blockChunk]; exact spotted_stmtsChunk sy.nest it stmts

theorem spotted_stmtsChunk (sy : Symbols) (it : Bool) : (ss : List Stmt) →
    (stmtsChunk sy it ss).Spotted
  | [] => by rw [stmtsChunk]; exact Chunk.spotted_empty
  | s :: ss => by
    rw [stmtsChunk]
    exact .seq (regular_stmtChunk sy it s) (spotted_stmtChunk sy it s) (spotted_stmtsChunk _ it ss)

end

/-! ### Exits -/

/-- Where an instruction goes to other than the next one. -/
def exit? : Opcode → List Nat → Option Nat
  | .jump, ns | .jumpNotTruthy, ns => ns[0]?
  | .iterRange, ns => ns[1]?
  | _, _ => none

/-- An instruction can be followed by what stands at its exit. -/
theorem mem_next_of_exit {i : Instr} {t : Nat} (h : exit? i.op i.operands = some t) (p height : Nat) :
    ∃ height', (t, height') ∈ i.next p height := by
  obtain ⟨op, ns⟩ := i
  cases op <;> simp only [exit?] at h
  case jump =>
    exact ⟨height, by simp [Instr.next, List.head?_eq_getElem?, h]⟩
  case jumpNotTruthy =>
    exact ⟨height - 1, by simp [Instr.next, List.head?_eq_getElem?, h]⟩
  case iterRange =>
    exact ⟨height - 1, by simp [Instr.next, List.getD_eq_getElem?_getD, h]⟩
  all_goals cases h

/-- The places of a listing go up. -/
theorem pairwise_listing (is : List Instr) (p : Nat) :
    (listing p is).Pairwise (·.1 < ·.1) ∧ ∀ e ∈ listing p is, p ≤ e.1 := by
  induction is generalizing p with
  | nil => exact ⟨.nil, fun e he => by cases he⟩
  | cons i is ih =>
    obtain ⟨hsorted, hle⟩ := ih (p + i.size)
    have hpos := i.size_pos
    refine ⟨List.pairwise_cons.2 ⟨fun e he => ?_, hsorted⟩, fun e he => ?_⟩
    · have := hle e he
      show p < e.1
      omega
    · rcases List.mem_cons.1 he with rfl | he
      · exact Nat.le_refl _
      · have := hle e he
        omega

/-- A place of a listing has one instruction. -/
theorem listing_unique {is : List Instr} {p q : Nat} {i j : Instr} (hi : (q, i) ∈ listing p is)
    (hj : (q, j) ∈ listing p is) : i = j := by
  have : Std.Symm fun s t : Nat × Instr => s.1 ≠ t.1 := ⟨fun _ _ h => h.symm⟩
  have hne : (listing p is).Pairwise fun s t => s.1 ≠ t.1 :=
    (pairwise_listing is p).1.imp fun h => Nat.ne_of_lt h
  by_contra hij
  exact hne.forall hi hj (by simpa using hij) rfl

/-- Instructions go to one another or to the end, and use constants below `n`. -/
structure Linked (es : List (Nat × Instr)) (stop n : Nat) : Prop where
  exits : ∀ e ∈ es, ∀ t, exit? e.2.op e.2.operands = some t → t ∈ es.map Prod.fst ∨ t = stop
  constants : ∀ e ∈ es, e.2.op = .constant → e.2.operands.headD 0 < n

/-- The code of a balanced chunk without `break` is linked. -/
theorem linked_of_balanced {c : Chunk} {h h' b : Nat} (hb : c.Balanced 0 h h' b) (hs : c.Spotted)
    {k p x : Nat} (hbreaks : c.breaks p = []) :
    Linked (listing p (c.code k p x)) (p + c.size) (k + c.pool.length) := by
  have hcovered : ∀ e ∈ listing p (c.code k p x), ∃ height, Covered (c.spots p h)
      (listing p (c.code k p x)) (p + c.size) (k + c.pool.length) 0
      (fun t => t ∈ c.spots p h ∨ t = (p + c.size, h') ∨ t = (x, b) ∧ c.breaks p ≠ [])
      (e.1, height) e.2 := by
    rintro ⟨q, i⟩ he
    have hq : q ∈ (c.spots p h).map Prod.fst := by
      rw [hs k p x h]
      exact List.mem_map_of_mem (f := Prod.fst) he
    obtain ⟨⟨q, height⟩, hspot, rfl⟩ := List.mem_map.1 hq
    obtain ⟨j, hj⟩ := (hb.segment k p x).covers _ hspot
    obtain rfl := listing_unique he hj.mem
    exact ⟨height, hj⟩
  refine ⟨fun e he t ht => ?_, fun e he hop => ?_⟩
  · obtain ⟨height, hcov⟩ := hcovered e he
    obtain ⟨height', hnext⟩ := mem_next_of_exit ht e.1 height
    rcases hcov.next _ hnext with hmem | hend | ⟨-, hne⟩
    · refine .inl ?_
      rw [← hs k p x h]
      exact List.mem_map_of_mem (f := Prod.fst) hmem
    · exact .inr (Prod.mk.inj hend).1
    · exact absurd hbreaks hne
  · obtain ⟨height, hcov⟩ := hcovered e he
    exact hcov.const hop

/-- Linked code is linked to what comes after it. -/
theorem Linked.append {p mid stop m n : Nat} {is js : List Instr}
    (h : Linked (listing p is) mid m) (hmid : mid = p + sizeAll is)
    (h' : Linked (listing mid js) stop n) (hstop : stop = mid + sizeAll js) (hmn : m ≤ n) :
    Linked (listing p (is ++ js)) stop n := by
  subst hmid
  rw [listing_append]
  refine ⟨fun e he t ht => ?_, fun e he hop => ?_⟩
  · rw [List.map_append, List.mem_append]
    rcases List.mem_append.1 he with he | he
    · rcases h.exits e he t ht with hmem | hmid
      · exact .inl (.inl hmem)
      · cases js with
        | nil => exact .inr (by simp_all)
        | cons j js => exact .inl (.inr (by simp [listing, hmid]))
    · rcases h'.exits e he t ht with hmem | hend
      · exact .inl (.inr hmem)
      · exact .inr hend
  · rcases List.mem_append.1 he with he | he
    · exact Nat.lt_of_lt_of_le (h.constants e he hop) hmn
    · exact h'.constants e he hop

/-! ### Reading back -/

/-- An instruction as it is read from code. -/
def Instr.item (i : Instr) : Code.Item := .instr i.op i.operands

theorem itemAt_of_instrAt {code : Code} {p : Nat} {i : Instr} (h : InstrAt code p i)
    (hp : p < code.size) : code.itemAt p code[p] = i.item := by
  have hbyte : code[p] = i.op.toByte := by
    have := h.1
    rw [Array.getElem?_eq_getElem hp] at this
    exact Option.some.inj this
  rw [Code.itemAt, hbyte, Opcode.ofByte?_toByte]
  exact congrArg (Code.Item.instr i.op) h.2

/-- Code that holds instructions up to its end is read as these instructions. -/
theorem itemsFrom_of_placed {code : Code} {is : List Instr} {p : Nat} {done : Array (Nat × Code.Item)}
    (h : Placed code p is) (hend : p + sizeAll is = code.size) :
    (code.itemsFrom p done).toList =
      done.toList ++ (listing p is).map fun e => (e.1, e.2.item) := by
  induction is generalizing p done with
  | nil =>
    have hp : ¬ p < code.size := by
      rw [← hend]
      simp
    rw [Code.itemsFrom, dif_neg hp]
    simp [listing]
  | cons i is ih =>
    have hpos := i.size_pos
    rw [sizeAll_cons] at hend
    have hp : p < code.size := by omega
    have hitem := itemAt_of_instrAt h.1 hp
    have hsize : i.item.size = i.size := rfl
    rw [Code.itemsFrom, dif_pos hp]
    simp only [hitem, hsize]
    rw [ih h.2 (by omega)]
    simp [listing]

/-! ### Programs one after the other -/

/-- Code under construction between two programs is a list of instructions, which use what there
is. -/
structure Assembly.Listed (a : Assembly) (is : List Instr) : Prop where
  code : a.code.toList = encodeAll is
  fits : ∀ i ∈ is, i.Fits
  linked : Linked (listing 0 is) a.code.size a.constants.size
  slots : ∀ i ∈ is, i.SlotBelow a.symbols.size
  sound : a.symbols.Sound
  loops : a.loops = []

theorem Assembly.listed_empty : Assembly.Listed {} [] where
  code := rfl
  fits := by simp
  linked := ⟨by simp [listing], by simp [listing]⟩
  slots := by simp
  sound := Symbols.sound_empty
  loops := rfl

variable {a a' : Assembly} {is : List Instr}

theorem Assembly.Listed.size_code (h : a.Listed is) : a.code.size = sizeAll is := by
  rw [← Array.length_toList, h.code, length_encodeAll]

/-- One more program adds the instructions of its chunk. -/
theorem Assembly.Listed.compile {p : Program} (h : a.Listed is) (hc : a.compile p = .ok a') :
    ∃ js, a'.Listed (is ++ js) := by
  unfold Assembly.compile at hc
  cases hrun : (compileStmts p.stmts).run a with
  | error e => rw [hrun] at hc; cases hc
  | ok r =>
    obtain ⟨⟨⟩, b⟩ := r
    rw [hrun] at hc
    obtain rfl : b = a' := Except.ok.inj hc
    have hgrown := (compileStmts_emits p.stmts a b hrun).1
    have hsettled := (compileStmts_settles p.stmts).settled hrun h.sound
    have hit : topIterator a.loops = false := by rw [h.loops]; rfl
    rw [hit] at hgrown hsettled
    have hbreaks : (stmtsChunk a.symbols false p.stmts).breaks a.code.size = [] := by
      by_contra hne
      exact hgrown.inLoop hne h.loops
    have hlinked := linked_of_balanced
      (balanced_stmtsChunk a.symbols false (Nat.le_refl 0) (Nat.le_refl 0) p.stmts)
      (spotted_stmtsChunk a.symbols false p.stmts) (k := a.constants.size) (x := placeholder) hbreaks
    have hsize := hgrown.size_code (regular_stmtsChunk _ _ _)
    have hconstants := hgrown.size_constants
    have hlen := (regular_stmtsChunk a.symbols false p.stmts).sizeAll_code a.constants.size
      a.code.size placeholder
    rw [← hsize, ← hconstants] at hlinked
    refine ⟨(stmtsChunk a.symbols false p.stmts).code a.constants.size a.code.size placeholder,
      ?_, ?_, ?_, ?_, hsettled.sound, ?_⟩
    · rw [hgrown.code, h.code, encodeAll_append]
    · exact List.forall_mem_append.2 ⟨h.fits, hgrown.fits⟩
    · exact h.linked.append (by rw [h.size_code, Nat.zero_add]) hlinked (by rw [hsize, hlen])
        (by omega)
    · exact List.forall_mem_append.2
        ⟨fun i hi => (h.slots i hi).mono hsettled.size_le, hsettled.slots _ _ _⟩
    · rw [hgrown.loops, h.loops]
      rfl

theorem Assembly.Listed.compileAll (ps : List Program) (h : a.Listed is)
    (hc : ps.foldlM Assembly.compile a = .ok a') : ∃ js, a'.Listed js := by
  induction ps generalizing a is with
  | nil =>
    obtain rfl : a = a' := Except.ok.inj hc
    exact ⟨is, h⟩
  | cons p ps ih =>
    rw [List.foldlM_cons] at hc
    cases hp : a.compile p with
    | error e => rw [hp] at hc; cases hc
    | ok b =>
      rw [hp] at hc
      obtain ⟨js, hjs⟩ := h.compile hp
      exact ih hjs hc

/-- Code that a machine can run from its start to its end: it decodes into whole instructions, which
go to instructions or to the end, and use constants and slots that there are. -/
structure Assembly.WellFormed (a : Assembly) : Prop where
  whole : ∀ e ∈ a.code.items, ∃ op ns, e.2 = .instr op ns ∧ ns.length = op.arity ∧
    e.1 + op.size ≤ a.code.size
  exits : ∀ e ∈ a.code.items, ∀ op ns, e.2 = .instr op ns → ∀ t, exit? op ns = some t →
    t = a.code.size ∨ ∃ e' ∈ a.code.items, e'.1 = t
  constants : ∀ e ∈ a.code.items, ∀ ns, e.2 = .instr .constant ns → ∀ n ∈ ns, n < a.constants.size
  slots : ∀ e ∈ a.code.items, ∀ op ns, op = .getGlobal ∨ op = .setGlobal → e.2 = .instr op ns →
    ∀ n ∈ ns, n < a.symbols.size
  size_symbols : a.symbols.size ≤ 65536

/-- The operand of an instruction that has one. -/
theorem Instr.Fits.eq_headD {i : Instr} (h : i.Fits) (harity : i.op.arity = 1) {n : Nat}
    (hn : n ∈ i.operands) : n = i.operands.headD 0 := by
  obtain ⟨m, hm⟩ := List.length_eq_one_iff.1 (h.arity.trans harity)
  rw [hm] at hn ⊢
  exact List.mem_singleton.1 hn

theorem le_of_mem_listing {p : Nat} {e : Nat × Instr} (he : e ∈ listing p is) :
    e.1 + e.2.size ≤ p + sizeAll is := by
  induction is generalizing p with
  | nil => cases he
  | cons i is ih =>
    rw [sizeAll_cons]
    rcases List.mem_cons.1 he with rfl | he
    · show p + i.size ≤ _
      omega
    · have := ih he
      omega

theorem Assembly.Listed.mem_items (h : a.Listed is) {e : Nat × Code.Item} :
    e ∈ a.code.items ↔ ∃ i, (e.1, i) ∈ listing 0 is ∧ i.item = e.2 := by
  have hcode : a.code = ([] ++ (encodeAll is ++ [])).toArray := by
    rw [← Array.toList_inj, h.code]
    simp
  have hplaced : Placed a.code 0 is := by
    rw [hcode]
    exact .of_encodeAll [] [] h.fits
  have hend : 0 + sizeAll is = a.code.size := by rw [Nat.zero_add, h.size_code]
  rw [← Array.mem_toList_iff, Code.items, itemsFrom_of_placed hplaced hend]
  obtain ⟨q, item⟩ := e
  constructor
  · intro he
    obtain ⟨⟨q', i⟩, hi, heq⟩ := List.mem_map.1 (List.nil_append _ ▸ he)
    obtain ⟨rfl, rfl⟩ := Prod.mk.inj heq
    exact ⟨i, hi, rfl⟩
  · rintro ⟨i, hi, rfl⟩
    exact List.mem_append_right _ (List.mem_map.2 ⟨_, hi, rfl⟩)

theorem Assembly.Listed.wellFormed (h : a.Listed is) : a.WellFormed where
  whole := by
    intro e he
    obtain ⟨i, hi, hitem⟩ := h.mem_items.1 he
    have hle := le_of_mem_listing hi
    rw [Nat.zero_add, ← h.size_code] at hle
    exact ⟨i.op, i.operands, hitem.symm, (h.fits i (mem_of_mem_listing hi)).arity, hle⟩
  exits := by
    intro e he op ns hop t ht
    obtain ⟨i, hi, hitem⟩ := h.mem_items.1 he
    obtain ⟨rfl, rfl⟩ : i.op = op ∧ i.operands = ns := Code.Item.instr.inj (hitem.trans hop)
    rcases h.linked.exits _ hi t ht with hmem | hend
    · obtain ⟨⟨q, j⟩, hj, rfl⟩ := List.mem_map.1 hmem
      exact .inr ⟨(q, j.item), h.mem_items.2 ⟨j, hj, rfl⟩, rfl⟩
    · exact .inl hend
  constants := by
    intro e he ns hop n hn
    obtain ⟨i, hi, hitem⟩ := h.mem_items.1 he
    obtain ⟨hi1, rfl⟩ := Code.Item.instr.inj (hitem.trans hop)
    rw [(h.fits i (mem_of_mem_listing hi)).eq_headD (by rw [hi1]; rfl) hn]
    exact h.linked.constants _ hi hi1
  slots := by
    intro e he op ns hglobal hop n hn
    obtain ⟨i, hi, hitem⟩ := h.mem_items.1 he
    obtain ⟨rfl, rfl⟩ := Code.Item.instr.inj (hitem.trans hop)
    have hmem := mem_of_mem_listing hi
    have harity : i.op.arity = 1 := by
      rcases hglobal with hop | hop
      · rw [hop]; rfl
      · rw [hop]; rfl
    rw [(h.fits i hmem).eq_headD harity hn]
    exact h.slots i hmem hglobal
  size_symbols := h.sound.size_le

/-- Programs that are compiled one after the other give well-formed code. -/
theorem compile_wellFormed {ps : List Program} {a : Assembly}
    (h : ps.foldlM Assembly.compile {} = .ok a) : a.WellFormed := by
  obtain ⟨is, his⟩ := Assembly.listed_empty.compileAll ps h
  exact his.wellFormed

/-- A program that declares a variable, and a later one that changes it as long as it holds. -/
def sharedVariable : List Program :=
  [{ stmts := [.inferredDecl default none ⟨default, "x", .bool⟩ (.bool default true)],
     funcs := [], handlers := [] },
   { stmts := [.loop default (.mk default none (.var default "x") (.mk default none
      [.assign default none (.var default "x") (.bool default false)]))],
     funcs := [], handlers := [] }]

theorem sharedVariable_wellFormed :
    ∃ a, sharedVariable.foldlM Assembly.compile {} = .ok a ∧ a.symbols.size = 1 ∧ a.WellFormed := by
  have hok : ∃ a, sharedVariable.foldlM Assembly.compile {} = .ok a ∧ a.symbols.size = 1 := by
    simp [sharedVariable, Assembly.compile, compileStmts, compileStmt, compileDecl, compileExpr,
      compileAssign, compileBlock, loopBody, nested, put, emit, here, Assemble.patch, patchAll,
      Assemble.define, Assemble.resolve, Symbols.define, Symbols.resolve?, Symbols.nest,
      Symbols.unnest, maxWord, placeholder]
    exact ⟨_, rfl, rfl⟩
  obtain ⟨a, hcompile, hsize⟩ := hok
  exact ⟨a, hcompile, hsize, compile_wellFormed hcompile⟩

end TinyScript.Bytecode
