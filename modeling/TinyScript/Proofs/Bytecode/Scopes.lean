import Mathlib.Data.List.Pairwise
import TinyScript.Proofs.Binding.Uses
import TinyScript.Proofs.Bytecode.Slots

/-!
# Slots and scopes

Which slots the declarations of a program get (`stmtsSlots`), in the order of the text. A statement changes
what names stand for by its own declaration only (`stmtSymbols_sameNames`), so the table of names agrees
with the declarations around every place (`Agree.stmt`): what the parser reads in one scope and the compiler
in two, such as a loop with its variable, makes no difference for names.

Different declarations of a closed program have different slots (`Recorded.program`), except for anonymous
ones in one block. The table would give the slot of a variable to a second one with its name in the same
block, but a closed program has none.
-/

namespace TinyScript.Bytecode

/-! ### The table of names -/

namespace Symbols
variable {sy sy' sy'' : Symbols} {name other : String} {slot : Nat}

/-- The slot that a name has in the innermost block. -/
def here? (sy : Symbols) (name : String) : Option Nat :=
  match sy.blocks with
  | [] => sy.globals[name]?
  | block :: _ => block[name]?

/-- A name has a slot somewhere in the table. -/
def Names (sy : Symbols) (name : String) (slot : Nat) : Prop :=
  sy.globals[name]? = some slot ∨ ∃ block ∈ sy.blocks, block[name]? = some slot

theorem names_of_here? (h : sy.here? name = some slot) : sy.Names name slot := by
  unfold here? at h
  split at h
  · exact .inl h
  · next block outer heq => exact .inr ⟨block, heq ▸ List.mem_cons_self, h⟩

theorem define_of_here?_eq_some (h : sy.here? name = some slot) : sy.define name = (slot, sy) := by
  unfold here? at h
  unfold define
  cases hblocks : sy.blocks with
  | nil =>
    simp only [hblocks] at h
    simp only [h]
  | cons block outer =>
    simp only [hblocks] at h
    simp only [h]

theorem getElem?_insert_eq {table : Std.HashMap String Nat} :
    (table.insert name slot)[other]? = if other = name then some slot else table[other]? := by
  rw [Std.HashMap.getElem?_insert]
  by_cases h : other = name
  · rw [if_pos h, if_pos (beq_iff_eq.2 h.symm)]
  · rw [if_neg h, if_neg fun heq => h (beq_iff_eq.1 heq).symm]

theorem define_of_here?_eq_none (h : sy.here? name = none) : (sy.define name).1 = sy.size ∧
    (sy.define name).2.size = sy.size + 1 ∧ ∀ {other slot}, (sy.define name).2.Names other slot →
      other = name ∧ slot = sy.size ∨ sy.Names other slot := by
  have hinsert {table : Std.HashMap String Nat} {other : String} {slot : Nat}
      (hslot : (table.insert name sy.size)[other]? = some slot) :
      other = name ∧ slot = sy.size ∨ table[other]? = some slot := by
    rw [getElem?_insert_eq] at hslot
    split at hslot
    · next heq => exact .inl ⟨heq, (Option.some.inj hslot).symm⟩
    · exact .inr hslot
  obtain ⟨globals, blocks, size⟩ := sy
  cases blocks with
  | nil =>
    have h : globals[name]? = none := h
    simp only [define, h]
    refine ⟨trivial, trivial, fun hnames => ?_⟩
    rcases hnames with hglobal | ⟨block, hmem, -⟩
    · exact (hinsert hglobal).imp_right .inl
    · cases hmem
  | cons block outer =>
    have h : block[name]? = none := h
    simp only [define, h]
    refine ⟨trivial, trivial, fun hnames => ?_⟩
    rcases hnames with hglobal | ⟨b, hmem, hslot⟩
    · exact .inr (.inl hglobal)
    · rcases List.mem_cons.1 hmem with rfl | hmem
      · exact (hinsert hslot).imp_right fun hslot => .inr ⟨block, List.mem_cons_self, hslot⟩
      · exact .inr (.inr ⟨b, List.mem_cons_of_mem _ hmem, hslot⟩)

theorem here?_define :
    (sy.define name).2.here? other = if other = name then some (sy.define name).1 else sy.here? other := by
  cases h : sy.here? name with
  | some slot =>
    rw [define_of_here?_eq_some h]
    split
    · next heq => exact heq ▸ h
    · rfl
  | none =>
    obtain ⟨globals, blocks, size⟩ := sy
    cases blocks with
    | nil =>
      have h : globals[name]? = none := h
      simp only [define, h, here?, getElem?_insert_eq]
    | cons block outer =>
      have h : block[name]? = none := h
      simp only [define, h, here?, getElem?_insert_eq]

/-- A name is looked up in the innermost block first. -/
theorem resolve?_eq (sy : Symbols) :
    sy.resolve? name = (sy.here? name).or (sy.unnest.resolve? name) := by
  obtain ⟨globals, blocks, size⟩ := sy
  cases blocks with
  | nil =>
    simp only [resolve?, here?, unnest, List.tail_nil, List.findSome?_nil, Option.none_or, Option.or_self]
  | cons block outer =>
    simp only [resolve?, here?, unnest, List.tail_cons, List.findSome?_cons]
    cases block[name]? <;> rfl

@[simp] theorem resolve?_nest : sy.nest.resolve? name = sy.resolve? name := by
  simp only [resolve?, nest, List.findSome?_cons, Std.HashMap.getElem?_empty]

/-- A name that gets a slot stands for that slot, and other names for what they stood for. -/
theorem resolve?_define : (sy.define name).2.resolve? other =
    if other = name then some (sy.define name).1 else sy.resolve? other := by
  rw [resolve?_eq, here?_define]
  by_cases heq : other = name
  · rw [if_pos heq, if_pos heq, Option.some_or]
  · have houter : (sy.define name).2.unnest.resolve? other = sy.unnest.resolve? other := by
      unfold define
      split <;> split <;> simp [resolve?, unnest, getElem?_insert_eq, *]
    rw [if_neg heq, if_neg heq, houter, ← resolve?_eq]

/-- The same names stand for the same slots. -/
structure SameNames (sy sy' : Symbols) : Prop where
  globals : sy'.globals = sy.globals
  blocks : sy'.blocks = sy.blocks

theorem SameNames.refl (sy : Symbols) : SameNames sy sy := ⟨rfl, rfl⟩

theorem SameNames.trans (h : SameNames sy sy') (h' : SameNames sy' sy'') : SameNames sy sy'' :=
  ⟨h'.globals.trans h.globals, h'.blocks.trans h.blocks⟩

theorem SameNames.resolve?_eq (h : SameNames sy sy') : sy'.resolve? name = sy.resolve? name := by
  rw [resolve?, resolve?, h.globals, h.blocks]

theorem SameNames.here?_eq (h : SameNames sy sy') : sy'.here? name = sy.here? name := by
  rw [here?, here?, h.globals, h.blocks]

/-- Outside of the innermost block, the same names stand for the same slots. -/
structure SameOutside (sy sy' : Symbols) : Prop where
  globals : sy'.globals = sy.globals
  blocks : ∃ block, sy'.blocks = block :: sy.blocks.tail

theorem SameOutside.trans (h : SameOutside sy sy') (h' : SameOutside sy' sy'') : SameOutside sy sy'' := by
  obtain ⟨block, hblock⟩ := h.blocks
  obtain ⟨block', hblock'⟩ := h'.blocks
  refine ⟨h'.globals.trans h.globals, block', ?_⟩
  rw [hblock', hblock, List.tail_cons]

theorem SameNames.outside (h : SameNames sy sy') (hsy : sy.blocks ≠ []) : SameOutside sy sy' := by
  obtain ⟨block, outer, hblocks⟩ := List.exists_cons_of_ne_nil hsy
  exact ⟨h.globals, block, by rw [h.blocks, hblocks, List.tail_cons]⟩

theorem sameOutside_define (hsy : sy.blocks ≠ []) (name : String) :
    SameOutside sy (sy.define name).2 := by
  unfold define
  split
  · next heq => exact absurd heq hsy
  · next block outer heq =>
    split
    · exact ⟨rfl, block, by rw [heq, List.tail_cons]⟩
    · exact ⟨rfl, _, by rw [heq, List.tail_cons]⟩

theorem SameOutside.ne_nil (h : SameOutside sy sy') : sy'.blocks ≠ [] := by
  obtain ⟨block, hblock⟩ := h.blocks
  exact hblock ▸ List.cons_ne_nil _ _

/-- When a block is closed, what was declared in it is gone. -/
theorem SameOutside.unnest (h : SameOutside sy.nest sy') : SameNames sy sy'.unnest := by
  obtain ⟨block, hblock⟩ := h.blocks
  exact ⟨h.globals, congrArg List.tail hblock⟩

end Symbols

open Symbols (SameNames SameOutside)

theorem stmtSymbols_of_declared {sy : Symbols} {s : Stmt} {v : Var} (h : s.declared? = some v) :
    stmtSymbols sy s = (sy.define v.name).2 := by
  cases s <;> cases h <;> rw [stmtSymbols]

mutual

/-- A statement that declares nothing leaves all names as they are. -/
theorem stmtSymbols_sameNames (sy : Symbols) :
    (s : Stmt) → s.declared? = none → SameNames sy (stmtSymbols sy s)
  | .typedDecl .., h | .inferredDecl .., h => nomatch h
  | .cond _ _ (.mk _ _ _ body) more otherwise, _ => by
    rw [stmtSymbols]
    exact ((blockSymbols_sameNames sy body).trans (branchesSymbols_sameNames _ more)).trans
      (lastSymbols_sameNames _ otherwise)
  | .loop _ (.mk _ _ _ body), _ => by
    rw [stmtSymbols]
    exact blockSymbols_sameNames sy body
  | .each _ _ var _ body, _ => by
    rw [stmtSymbols]
    have hloop : SameOutside sy.nest (loopSymbols sy var) := by
      cases var with
      | none => exact (SameNames.refl _).outside (List.cons_ne_nil _ _)
      | some v => exact Symbols.sameOutside_define (List.cons_ne_nil _ _) v.name
    exact (hloop.trans ((blockSymbols_sameNames _ body).outside hloop.ne_nil)).unnest
  | .empty .., _ | .assign .., _ | .call .., _ | .ret .., _ | .brk .., _ | .func .., _ | .on .., _ => by
    simp only [stmtSymbols]
    exact .refl sy

theorem branchesSymbols_sameNames (sy : Symbols) :
    (bs : List Branch) → SameNames sy (branchesSymbols sy bs)
  | [] => by
    rw [branchesSymbols]
    exact .refl sy
  | .mk _ _ _ body :: more => by
    rw [branchesSymbols]
    exact (blockSymbols_sameNames sy body).trans (branchesSymbols_sameNames _ more)

theorem lastSymbols_sameNames (sy : Symbols) : (b : Option Block) → SameNames sy (lastSymbols sy b)
  | none => by
    rw [lastSymbols]
    exact .refl sy
  | some b => by
    rw [lastSymbols]
    exact blockSymbols_sameNames sy b

theorem blockSymbols_sameNames (sy : Symbols) : (b : Block) → SameNames sy (blockSymbols sy b)
  | .mk _ _ stmts => by
    rw [blockSymbols]
    exact (stmtsSymbols_sameOutside sy.nest (List.cons_ne_nil _ _) stmts).unnest

theorem stmtsSymbols_sameOutside (sy : Symbols) (hsy : sy.blocks ≠ []) :
    (ss : List Stmt) → SameOutside sy (stmtsSymbols sy ss)
  | [] => by
    rw [stmtsSymbols]
    exact (SameNames.refl sy).outside hsy
  | s :: ss => by
    rw [stmtsSymbols]
    have hfirst : SameOutside sy (stmtSymbols sy s) := by
      cases hs : s.declared? with
      | none => exact (stmtSymbols_sameNames sy s hs).outside hsy
      | some v => exact stmtSymbols_of_declared hs ▸ Symbols.sameOutside_define hsy v.name
    exact hfirst.trans (stmtsSymbols_sameOutside _ hfirst.ne_nil ss)

end

/-! ### Slots of declarations -/

def bindSlots (sy : Symbols) : Option Var → List (String × Nat)
  | none => []
  | some v => [(v.name, (sy.define v.name).1)]

mutual

/-- The slots that the declarations in a statement get, in the order of the text. -/
def stmtSlots (sy : Symbols) : Stmt → List (String × Nat)
  | .typedDecl _ _ v _ | .inferredDecl _ _ v _ => bindSlots sy (some v)
  | .cond _ _ (.mk _ _ _ body) more otherwise =>
    blockSlots sy body ++ (branchesSlots (blockSymbols sy body) more ++
      lastSlots (branchesSymbols (blockSymbols sy body) more) otherwise)
  | .loop _ (.mk _ _ _ body) => blockSlots sy body
  | .each _ _ var _ body => bindSlots sy.nest var ++ blockSlots (loopSymbols sy var) body
  | _ => []

def branchesSlots (sy : Symbols) : List Branch → List (String × Nat)
  | [] => []
  | .mk _ _ _ body :: more => blockSlots sy body ++ branchesSlots (blockSymbols sy body) more

def lastSlots (sy : Symbols) : Option Block → List (String × Nat)
  | none => []
  | some block => blockSlots sy block

def blockSlots (sy : Symbols) : Block → List (String × Nat)
  | .mk _ _ stmts => stmtsSlots sy.nest stmts

def stmtsSlots (sy : Symbols) : List Stmt → List (String × Nat)
  | [] => []
  | s :: ss => stmtSlots sy s ++ stmtsSlots (stmtSymbols sy s) ss

end

theorem map_fst_bindSlots (sy : Symbols) (var : Option Var) :
    (bindSlots sy var).map Prod.fst = var.toList.map Var.name := by
  cases var <;> rfl

mutual

theorem map_fst_stmtSlots (sy : Symbols) : (s : Stmt) → (stmtSlots sy s).map Prod.fst = Stmt.binders s
  | .typedDecl .. | .inferredDecl .. => by
    rw [stmtSlots, Stmt.binders]
    exact map_fst_bindSlots sy (some _)
  | .cond _ _ (.mk _ _ _ body) more otherwise => by
    rw [stmtSlots, Stmt.binders, Branch.binders, List.map_append, List.map_append,
      map_fst_blockSlots sy body, map_fst_branchesSlots _ more, map_fst_lastSlots _ otherwise]
  | .loop _ (.mk _ _ _ body) => by
    rw [stmtSlots, Stmt.binders, Branch.binders, map_fst_blockSlots sy body]
  | .each _ _ var _ body => by
    rw [stmtSlots, Stmt.binders, List.map_append, map_fst_bindSlots, map_fst_blockSlots _ body]
  | .empty .. | .assign .. | .call .. | .ret .. | .brk .. | .func .. | .on .. => by
    simp only [stmtSlots, Stmt.binders, List.map_nil]

theorem map_fst_branchesSlots (sy : Symbols) :
    (bs : List Branch) → (branchesSlots sy bs).map Prod.fst = Branch.allBinders bs
  | [] => by rw [branchesSlots, Branch.allBinders, List.map_nil]
  | .mk _ _ _ body :: more => by
    rw [branchesSlots, Branch.allBinders, Branch.binders, List.map_append, map_fst_blockSlots sy body,
      map_fst_branchesSlots _ more]

theorem map_fst_lastSlots (sy : Symbols) :
    (b : Option Block) → (lastSlots sy b).map Prod.fst = Block.lastBinders b
  | none => by rw [lastSlots, Block.lastBinders, List.map_nil]
  | some b => by rw [lastSlots, Block.lastBinders, map_fst_blockSlots sy b]

theorem map_fst_blockSlots (sy : Symbols) :
    (b : Block) → (blockSlots sy b).map Prod.fst = Block.binders b
  | .mk _ _ stmts => by rw [blockSlots, Block.binders, map_fst_stmtsSlots sy.nest stmts]

theorem map_fst_stmtsSlots (sy : Symbols) :
    (ss : List Stmt) → (stmtsSlots sy ss).map Prod.fst = Stmt.allBinders ss
  | [] => by rw [stmtsSlots, Stmt.allBinders, List.map_nil]
  | s :: ss => by
    rw [stmtsSlots, Stmt.allBinders, List.map_append, map_fst_stmtSlots sy s, map_fst_stmtsSlots _ ss]

end

theorem length_bindSlots (sy : Symbols) (var : Option Var) :
    (bindSlots sy var).length = var.toList.length := by
  cases var <;> rfl

theorem length_stmtSlots (sy : Symbols) (s : Stmt) : (stmtSlots sy s).length = (Stmt.binders s).length := by
  rw [← map_fst_stmtSlots sy s, List.length_map]

theorem length_blockSlots (sy : Symbols) (b : Block) :
    (blockSlots sy b).length = (Block.binders b).length := by
  rw [← map_fst_blockSlots sy b, List.length_map]

/-! ### Agreement of the table with the text -/

/-- From number `n` on, declarations have these slots. -/
abbrev Gives (slot : Nat → Nat) (n : Nat) (l : List (String × Nat)) : Prop :=
  From slot Prod.snd n l

/-- Every name stands for the slot of its nearest declaration. -/
def Agree (slot : Nat → Nat) (sy : Symbols) (around : Sites) : Prop :=
  ∀ name, sy.resolve? name = (around.lookup name).map slot

section
variable {slot : Nat → Nat} {sy sy' : Symbols} {around : Sites} {n : Nat} {l l' : List (String × Nat)}

theorem Gives.bind {v : Var} (h : Gives slot n (bindSlots sy (some v))) :
    slot n = (sy.define v.name).1 :=
  h 0 _ rfl

theorem Agree.of_sameNames (h : Agree slot sy around) (hs : SameNames sy sy') : Agree slot sy' around :=
  fun name => hs.resolve?_eq.trans (h name)

theorem Agree.nest (h : Agree slot sy around) : Agree slot sy.nest around :=
  fun name => Symbols.resolve?_nest.trans (h name)

theorem Agree.define (h : Agree slot sy around) {v : Var} (hn : Gives slot n (bindSlots sy (some v))) :
    Agree slot (sy.define v.name).2 (Sites.bind n (some v) ++ around) := by
  intro other
  show (sy.define v.name).2.resolve? other = (((v.name, n) :: around).lookup other).map slot
  rw [Symbols.resolve?_define, List.lookup_cons]
  by_cases heq : other = v.name
  · rw [if_pos heq, beq_iff_eq.2 heq, Option.map_some, hn.bind]
  · rw [if_neg heq, beq_eq_false_iff_ne.2 heq, h other]

theorem Agree.loop (h : Agree slot sy around) {var : Option Var}
    (hn : Gives slot n (bindSlots sy.nest var)) :
    Agree slot (loopSymbols sy var) (Sites.bind n var ++ around) := by
  cases var with
  | none => exact h.nest
  | some v => exact h.nest.define hn

/-- After a statement, its declaration is around. -/
theorem Agree.stmt (h : Agree slot sy around) {s : Stmt} (hn : Gives slot n (stmtSlots sy s)) :
    Agree slot (stmtSymbols sy s) (Sites.bind n s.declared? ++ around) := by
  cases hs : s.declared? with
  | none => exact h.of_sameNames (stmtSymbols_sameNames sy s hs)
  | some v =>
    have hslots : stmtSlots sy s = bindSlots sy (some v) := by
      cases s <;> cases hs <;> rw [stmtSlots]
    rw [stmtSymbols_of_declared hs]
    exact h.define (hslots ▸ hn)

end

/-! ### Different slots -/

/-- Two declarations have different slots, unless both are anonymous. -/
def Apart (d e : String × Nat) : Prop :=
  d.2 = e.2 → d.1 = "_" ∧ e.1 = "_"

instance : Std.Symm Apart := ⟨fun _ _ h heq => (h heq.symm).symm⟩

/-- The slots `done` were handed out, to different declarations except for anonymous ones, and the table has
no other ones. -/
structure Recorded (sy : Symbols) (done : List (String × Nat)) : Prop where
  tables : ∀ {name : String} {slot : Nat}, sy.Names name slot → (name, slot) ∈ done
  below : ∀ d ∈ done, d.2 < sy.size
  apart : done.Pairwise Apart

namespace Recorded
variable {sy : Symbols} {done : List (String × Nat)} {d e : String × Nat}

theorem empty : Recorded {} [] where
  tables h := by
    rcases h with hglobal | ⟨block, hmem, -⟩
    · cases Std.HashMap.getElem?_empty.symm.trans hglobal
    · cases hmem
  below := nofun
  apart := .nil

theorem nest (h : Recorded sy done) : Recorded sy.nest done where
  tables hnames := by
    rcases hnames with hglobal | ⟨block, hmem, hslot⟩
    · exact h.tables (.inl hglobal)
    · rcases List.mem_cons.1 hmem with rfl | hmem
      · cases Std.HashMap.getElem?_empty.symm.trans hslot
      · exact h.tables (.inr ⟨block, hmem, hslot⟩)
  below := h.below
  apart := h.apart

theorem unnest (h : Recorded sy done) : Recorded sy.unnest done where
  tables hnames := by
    rcases hnames with hglobal | ⟨block, hmem, hslot⟩
    · exact h.tables (.inl hglobal)
    · exact h.tables (.inr ⟨block, List.mem_of_mem_tail hmem, hslot⟩)
  below := h.below
  apart := h.apart

theorem eq_anonymous (h : Recorded sy done) (hd : d ∈ done) (he : e ∈ done) (heq : d.2 = e.2)
    (hanon : e.1 = "_") : d.1 = "_" := by
  by_cases hde : d = e
  · exact hde ▸ hanon
  · exact (h.apart.forall hd he hde heq).1

/-- A name gets a slot of its own if it is new in its block, and an anonymous declaration also if not. -/
theorem define (h : Recorded sy done) {name : String} (hnew : name ≠ "_" → sy.here? name = none) :
    Recorded (sy.define name).2 (done ++ [(name, (sy.define name).1)]) := by
  cases hhere : sy.here? name with
  | some slot =>
    -- a declaration that shares the slot of another one in its block
    have hanon : name = "_" := by
      by_contra hne
      cases hhere.symm.trans (hnew hne)
    have hmem : (name, slot) ∈ done := h.tables (Symbols.names_of_here? hhere)
    rw [Symbols.define_of_here?_eq_some hhere]
    refine ⟨fun hnames => List.mem_append_left _ (h.tables hnames), ?_, ?_⟩
    · exact List.forall_mem_append.2 ⟨h.below, List.forall_mem_singleton.2 (h.below _ hmem)⟩
    · refine List.pairwise_append.2 ⟨h.apart, List.pairwise_singleton _ _, fun d hd e he heq => ?_⟩
      obtain rfl := List.mem_singleton.1 he
      exact ⟨h.eq_anonymous hd hmem heq hanon, hanon⟩
  | none =>
    obtain ⟨hslot, hsize, hnames⟩ := Symbols.define_of_here?_eq_none hhere
    rw [hslot]
    refine ⟨fun hother => ?_, ?_, ?_⟩
    · rcases hnames hother with ⟨rfl, rfl⟩ | hold
      · exact List.mem_append_right _ List.mem_cons_self
      · exact List.mem_append_left _ (h.tables hold)
    · rw [hsize]
      exact List.forall_mem_append.2 ⟨fun d hd => Nat.lt_succ_of_lt (h.below d hd),
        List.forall_mem_singleton.2 (Nat.lt_succ_self _)⟩
    · refine List.pairwise_append.2 ⟨h.apart, List.pairwise_singleton _ _, fun d hd e he heq => ?_⟩
      obtain rfl := List.mem_singleton.1 he
      exact absurd heq (Nat.ne_of_lt (h.below d hd))

theorem bind (h : Recorded sy done) (var : Option Var) :
    Recorded (loopSymbols sy var) (done ++ bindSlots sy.nest var) := by
  cases var with
  | none =>
    rw [bindSlots, List.append_nil]
    exact h.nest
  | some v => exact h.nest.define fun _ => Std.HashMap.getElem?_empty

end Recorded

/-- The names of the innermost block are those of the variables that were declared in it. -/
def Opened (sy : Symbols) (vars : List Var) : Prop :=
  ∀ name, sy.here? name ≠ none → ∃ v ∈ vars, v.name = name

/-- Only anonymous variables of one scope share a name. -/
def Distinct (vars : List Var) : Prop :=
  vars.Pairwise fun v w => v.name = w.name → v.name = "_"

section
variable {sy : Symbols} {vars more : List Var} {v : Var}

theorem opened_nest (sy : Symbols) : Opened sy.nest [] :=
  fun _ h => absurd Std.HashMap.getElem?_empty h

theorem Opened.define (h : Opened sy vars) (v : Var) : Opened (sy.define v.name).2 (vars ++ [v]) := by
  intro name hname
  rw [Symbols.here?_define] at hname
  split at hname
  · next heq => exact ⟨v, List.mem_append_right _ List.mem_cons_self, heq.symm⟩
  · obtain ⟨w, hw, heq⟩ := h name hname
    exact ⟨w, List.mem_append_left _ hw, heq⟩

/-- A variable with a name is new in its block. -/
theorem Opened.here?_eq_none (h : Opened sy vars) (hdistinct : Distinct (vars ++ v :: more))
    (hname : v.name ≠ "_") : sy.here? v.name = none := by
  by_contra hne
  obtain ⟨w, hw, heq⟩ := h v.name hne
  have hanon := (List.pairwise_append.1 hdistinct).2.2 w hw v List.mem_cons_self heq
  exact hname (heq ▸ hanon)

end

section
variable {taken : String → Prop}

mutual

/-- The declarations in a statement of a closed program get slots of their own. -/
theorem recorded_stmt {sy : Symbols} {done : List (String × Nat)} {around : List Var}
    (h : Recorded sy done) : (s : Stmt) → Stmt.Closed taken around s →
      (∀ v, s.declared? = some v → v.name ≠ "_" → sy.here? v.name = none) →
        Recorded (stmtSymbols sy s) (done ++ stmtSlots sy s)
  | .typedDecl _ _ v _, _, hnew | .inferredDecl _ _ v _, _, hnew => by
    rw [stmtSymbols, stmtSlots]
    exact h.define (hnew v rfl)
  | .cond _ _ (.mk _ _ _ body) more otherwise, hs, _ => by
    rw [Stmt.Closed, Branch.Closed] at hs
    obtain ⟨⟨-, hbody⟩, hmore, hlast⟩ := hs
    rw [stmtSymbols, stmtSlots, ← List.append_assoc, ← List.append_assoc]
    exact recorded_last (recorded_branches (recorded_block h body hbody) more hmore) otherwise hlast
  | .loop _ (.mk _ _ _ body), hs, _ => by
    rw [Stmt.Closed, Branch.Closed] at hs
    rw [stmtSymbols, stmtSlots]
    exact recorded_block h body hs.2
  | .each _ _ var _ body, hs, _ => by
    rw [Stmt.Closed] at hs
    rw [stmtSymbols, stmtSlots, ← List.append_assoc]
    exact (recorded_block (h.bind var) body hs.2).unnest
  | .empty .., _, _ | .assign .., _, _ | .call .., _, _ | .ret .., _, _ | .brk .., _, _
  | .func .., _, _ | .on .., _, _ => by
    simp only [stmtSymbols, stmtSlots, List.append_nil]
    exact h

theorem recorded_branches {sy : Symbols} {done : List (String × Nat)} {around : List Var}
    (h : Recorded sy done) : (bs : List Branch) → Branch.AllClosed taken around bs →
      Recorded (branchesSymbols sy bs) (done ++ branchesSlots sy bs)
  | [], _ => by
    rw [branchesSymbols, branchesSlots, List.append_nil]
    exact h
  | .mk _ _ _ body :: more, hb => by
    rw [Branch.AllClosed, Branch.Closed] at hb
    rw [branchesSymbols, branchesSlots, ← List.append_assoc]
    exact recorded_branches (recorded_block h body hb.1.2) more hb.2

theorem recorded_last {sy : Symbols} {done : List (String × Nat)} {around : List Var}
    (h : Recorded sy done) : (b : Option Block) → Block.LastClosed taken around b →
      Recorded (lastSymbols sy b) (done ++ lastSlots sy b)
  | none, _ => by
    rw [lastSymbols, lastSlots, List.append_nil]
    exact h
  | some b, hb => by
    rw [Block.LastClosed] at hb
    rw [lastSymbols, lastSlots]
    exact recorded_block h b hb

theorem recorded_block {sy : Symbols} {done : List (String × Nat)} {around vars : List Var}
    (h : Recorded sy done) : (b : Block) → Block.Closed taken around vars b →
      Recorded (blockSymbols sy b) (done ++ blockSlots sy b)
  | .mk _ _ stmts, hb => by
    rw [Block.Closed] at hb
    rw [blockSymbols, blockSlots]
    have hdistinct : Distinct ([] ++ declaredIn stmts) := (List.pairwise_append.1 hb.1.distinct).2.1
    exact (recorded_stmts h.nest stmts hb.2.2 (opened_nest sy) hdistinct).unnest

theorem recorded_stmts {sy : Symbols} {done : List (String × Nat)} {around vars : List Var}
    (h : Recorded sy done) : (ss : List Stmt) → Stmt.AllClosed taken around ss → Opened sy vars →
      Distinct (vars ++ declaredIn ss) → Recorded (stmtsSymbols sy ss) (done ++ stmtsSlots sy ss)
  | [], _, _, _ => by
    rw [stmtsSymbols, stmtsSlots, List.append_nil]
    exact h
  | s :: ss, hs, hopened, hdistinct => by
    rw [Stmt.AllClosed] at hs
    obtain ⟨hfirst, -, hrest⟩ := hs
    rw [stmtsSymbols, stmtsSlots, ← List.append_assoc]
    -- the names of the block grow with the variables of its own statements only
    cases hv : s.declared? with
    | none =>
      have hsame := stmtSymbols_sameNames sy s hv
      have hopened' : Opened (stmtSymbols sy s) vars := fun name hname => hopened name (hsame.here?_eq ▸ hname)
      have hdeclared : declaredIn (s :: ss) = declaredIn ss := List.filterMap_cons_none hv
      refine recorded_stmts (recorded_stmt h s hfirst fun v hv' => ?_) ss hrest hopened' (hdeclared ▸ hdistinct)
      cases hv.symm.trans hv'
    | some v =>
      have hdeclared : declaredIn (s :: ss) = v :: declaredIn ss := List.filterMap_cons_some hv
      rw [hdeclared] at hdistinct
      have hopened' : Opened (stmtSymbols sy s) (vars ++ [v]) :=
        stmtSymbols_of_declared hv ▸ hopened.define v
      have hdistinct' : Distinct ((vars ++ [v]) ++ declaredIn ss) := by
        rw [List.append_assoc]
        exact hdistinct
      refine recorded_stmts (recorded_stmt h s hfirst fun w hw => ?_) ss hrest hopened' hdistinct'
      obtain rfl := Option.some.inj (hv.symm.trans hw)
      exact hopened.here?_eq_none hdistinct

end

theorem Recorded.program {prelude : Prelude} {p : Program} (h : p.Closed prelude) :
    Recorded (stmtsSymbols {} p.stmts) (stmtsSlots {} p.stmts) := by
  have hopened : Opened {} [] := fun _ hname => absurd Std.HashMap.getElem?_empty hname
  exact recorded_stmts .empty p.stmts h.stmts hopened h.declarable.distinct

end

end TinyScript.Bytecode
