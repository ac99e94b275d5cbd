import TinyScript.Bytecode.StackMachine
import TinyScript.Proofs.Bytecode.Histories
import TinyScript.Proofs.Simulation.Mirrors
import TinyScript.Proofs.Typing.Values

/-!
# Variables of both backends

The evaluator keeps the variables of each open block in a frame, the stack machine keeps all of them in
one array, and the table of names says where. `Tracks` relates the two: what a name stands for in its
block is mirrored in the slot of the name. It is kept by opening and closing blocks, by declarations and
by assignments, because names that are in scope at a time have different slots.
-/

namespace TinyScript

/-- The frames, innermost first; the globals are the last. -/
def Frames.scopes (fs : Frames) : List Frame :=
  fs.locals ++ [fs.globals]

theorem Frames.get?_eq_findSome? (fs : Frames) (name : String) :
    fs.get? name = fs.scopes.findSome? (·.get? name) := by
  rw [scopes, List.findSome?_append, List.findSome?_singleton]
  rfl

end TinyScript

namespace TinyScript.Bytecode
open Symbols (SameNames SameOutside)

/-- A table of names with their slots. -/
abbrev Table := Std.HashMap String Nat

/-! ### Tables of a compilation -/

/-- The table comes from the empty one by edits. -/
def Symbols.FromEdits (sy : Symbols) : Prop :=
  ∃ edits, (Symbols.History.ofEdits edits).table = sy

/-- No slot stands for two names of the tables. -/
structure Separate (tables : List Table) : Prop where
  inside : ∀ t ∈ tables, ∀ (name other : String) (slot : Nat), t[name]? = some slot → t[other]? = some slot →
    name = other
  between : tables.Pairwise fun t u => ∀ (name other : String) (slot : Nat), t[name]? = some slot →
    u[other]? ≠ some slot

namespace Symbols.FromEdits
variable {sy : Symbols}

theorem empty : FromEdits {} := ⟨[], rfl⟩

theorem step (h : sy.FromEdits) (e : Edit) :
    ∃ edits, (History.ofEdits edits).table = sy ∧
      (History.ofEdits (edits ++ [e])).table = ((History.ofEdits edits).step e).table := by
  obtain ⟨edits, hsy⟩ := h
  exact ⟨edits, hsy, by rw [History.ofEdits, List.foldl_concat]; rfl⟩

theorem nest (h : sy.FromEdits) : sy.nest.FromEdits := by
  obtain ⟨edits, rfl, hstep⟩ := h.step .nest
  exact ⟨_, hstep⟩

theorem unnest (h : sy.FromEdits) : sy.unnest.FromEdits := by
  obtain ⟨edits, rfl, hstep⟩ := h.step .unnest
  exact ⟨_, hstep⟩

theorem define (h : sy.FromEdits) (name : String) : (sy.define name).2.FromEdits := by
  obtain ⟨edits, rfl, hstep⟩ := h.step (.define name)
  exact ⟨_, hstep⟩

theorem separate (h : sy.FromEdits) : Separate sy.tables := by
  obtain ⟨edits, rfl⟩ := h
  have hr := History.Recorded.ofEdits edits
  refine ⟨fun t ht name other slot hname hother => ?_, List.pairwise_iff_getElem.2 ?_⟩
  · obtain ⟨i, hi⟩ := List.mem_iff_getElem?.1 ht
    exact (hr.eq_of_tables hi hi hname hother).2
  · intro i j hi hj hlt name other slot hname hother
    exact Nat.ne_of_lt hlt (hr.eq_of_tables (List.getElem?_eq_getElem hi) (List.getElem?_eq_getElem hj)
      hname hother).1

end Symbols.FromEdits

namespace Symbols.FromEdits
variable {sy : Symbols}

theorem loop (h : sy.FromEdits) (var : Option Var) : (loopSymbols sy var).FromEdits := by
  cases var with
  | none => exact h.nest
  | some x => exact h.nest.define x.name

mutual

theorem stmt {sy : Symbols} (h : sy.FromEdits) : (s : Stmt) → (stmtSymbols sy s).FromEdits
  | .typedDecl _ _ var _ | .inferredDecl _ _ var _ => by
    rw [stmtSymbols]
    exact h.define var.name
  | .cond _ _ (.mk _ _ _ body) more otherwise => by
    rw [stmtSymbols]
    exact last (branches (block h body) more) otherwise
  | .loop _ (.mk _ _ _ body) => by
    rw [stmtSymbols]
    exact block h body
  | .each _ _ var _ body => by
    rw [stmtSymbols]
    exact (block (h.loop var) body).unnest
  | .empty .. | .assign .. | .call .. | .ret .. | .brk .. | .func .. | .on .. => by
    simp only [stmtSymbols]
    exact h

theorem branches {sy : Symbols} (h : sy.FromEdits) : (bs : List Branch) → (branchesSymbols sy bs).FromEdits
  | [] => by
    rw [branchesSymbols]
    exact h
  | .mk _ _ _ body :: more => by
    rw [branchesSymbols]
    exact branches (block h body) more

theorem last {sy : Symbols} (h : sy.FromEdits) : (b : Option Block) → (lastSymbols sy b).FromEdits
  | none => by
    rw [lastSymbols]
    exact h
  | some b => by
    rw [lastSymbols]
    exact block h b

theorem block {sy : Symbols} (h : sy.FromEdits) : (b : Block) → (blockSymbols sy b).FromEdits
  | .mk _ _ ss => by
    rw [blockSymbols]
    exact (stmts h.nest ss).unnest

theorem stmts {sy : Symbols} (h : sy.FromEdits) : (ss : List Stmt) → (stmtsSymbols sy ss).FromEdits
  | [] => by
    rw [stmtsSymbols]
    exact h
  | s :: ss => by
    rw [stmtsSymbols]
    exact stmts (stmt h s) ss

end

end Symbols.FromEdits

/-- Where no block is open, a global gets a slot. -/
theorem Symbols.define_global {sy : Symbols} (h : sy.blocks = []) (name : String) :
    (sy.define name).2.blocks = [] ∧ ∀ other : String, (sy.define name).2.globals[other]? =
      if other = name then some (sy.define name).1 else sy.globals[other]? := by
  obtain ⟨globals, blocks, size⟩ := sy
  cases h
  have hblocks : (Symbols.define ⟨globals, [], size⟩ name).2.blocks = [] := by
    simp only [Symbols.define]
    split <;> rfl
  refine ⟨hblocks, fun other => ?_⟩
  have hhere : (Symbols.define ⟨globals, [], size⟩ name).2.here? other = _ := Symbols.here?_define
  rw [Symbols.here?, hblocks] at hhere
  exact hhere

/-- Where a block is open, a name of the block gets a slot. -/
theorem Symbols.define_local {sy : Symbols} {t : Table} {ts : List Table} (h : sy.blocks = t :: ts)
    (name : String) : (sy.define name).2.globals = sy.globals ∧
      ∃ t', (sy.define name).2.blocks = t' :: ts ∧ ∀ other : String,
        t'[other]? = if other = name then some (sy.define name).1 else t[other]? := by
  obtain ⟨globals, blocks, size⟩ := sy
  cases h
  obtain ⟨hglobals, t', hblocks⟩ : (Symbols.define ⟨globals, t :: ts, size⟩ name).2.globals = globals ∧
      ∃ t', (Symbols.define ⟨globals, t :: ts, size⟩ name).2.blocks = t' :: ts := by
    simp only [Symbols.define]
    split <;> exact ⟨rfl, _, rfl⟩
  refine ⟨hglobals, t', hblocks, fun other => ?_⟩
  have hhere : (Symbols.define ⟨globals, t :: ts, size⟩ name).2.here? other = _ := Symbols.here?_define
  rw [Symbols.here?, hblocks] at hhere
  exact hhere

/-! ### Frames and slots -/

/-- The names of a table stand for values in a frame that are mirrored in their slots. -/
def Bound (g : Array Cell) (t : Table) (f : Frame) : Prop :=
  ∀ (name : String) (slot : Nat), t[name]? = some slot →
    ∃ v c, f.get? name = some v ∧ g[slot]? = some c ∧ Mirrors v c

/-- A frame has no names but those of a table. -/
def Hides (t : Table) (f : Frame) : Prop :=
  ∀ name : String, t[name]? = none → f.get? name = none

/-- The variables of the evaluator are mirrored in the slots that the table gives them. The globals can
have more names than the table. -/
structure Tracks (sy : Symbols) (fs : Frames) (g : Array Cell) : Prop where
  size : g.size = globalsSize
  bound : List.Forall₂ (Bound g) sy.tables fs.scopes
  hides : List.Forall₂ Hides sy.blocks fs.locals

/-- Every name of the table stands for a value that is mirrored in the slot of the name. -/
def Sees (sy : Symbols) (fs : Frames) (g : Array Cell) : Prop :=
  ∀ (name : String) (slot : Nat), sy.resolve? name = some slot →
    ∃ v c, fs.get? name = some v ∧ g[slot]? = some c ∧ Mirrors v c

section
variable {g : Array Cell} {t t' : Table} {f f' : Frame} {name : String} {slot : Nat} {v : Value} {c : Cell}
  {sy sy' : Symbols} {fs : Frames}

theorem Bound.set_other (h : Bound g t f) (hslot : ∀ name : String, t[name]? ≠ some slot) :
    Bound (g.setIfInBounds slot c) t f := by
  intro name slot' hname
  obtain ⟨v, d, hv, hd, hm⟩ := h name slot' hname
  have hne : slot ≠ slot' := by
    rintro rfl
    exact hslot name hname
  exact ⟨v, d, hv, (Array.getElem?_setIfInBounds_ne hne).trans hd, hm⟩

/-- A name gets a value in a frame, in a slot that no other name of the table has. -/
theorem Bound.update (h : Bound g t f) (hlt : slot < g.size) (hm : Mirrors v c)
    (hf : ∀ other, f'.get? other = if other = name then some v else f.get? other)
    (ht : ∀ other : String, t'[other]? = if other = name then some slot else t[other]?)
    (hinside : ∀ other : String, t'[other]? = some slot → other = name) :
    Bound (g.setIfInBounds slot c) t' f' := by
  intro other slot' hother
  rw [hf]
  by_cases heq : other = name
  · rw [ht, if_pos heq] at hother
    cases hother
    exact ⟨v, c, if_pos heq, Array.getElem?_setIfInBounds_self_of_lt hlt, hm⟩
  · have hne : slot ≠ slot' := fun hs => heq (hinside other (hs ▸ hother))
    rw [ht, if_neg heq] at hother
    rw [if_neg heq, Array.getElem?_setIfInBounds_ne hne]
    exact h other slot' hother

theorem Hides.update (h : Hides t f)
    (hf : ∀ other, f'.get? other = if other = name then some v else f.get? other)
    (ht : ∀ other : String, t'[other]? = if other = name then some slot else t[other]?) : Hides t' f' := by
  intro other hother
  rw [hf]
  rw [ht] at hother
  split at hother
  · cases hother
  · next hne => exact (if_neg hne).trans (h other hother)

/-- What a name stands for. -/
theorem Tracks.sees (h : Tracks sy fs g) : Sees sy fs g := by
  intro name slot hslot
  rw [Symbols.resolve?_eq_findSome?] at hslot
  rw [Frames.get?_eq_findSome?]
  have hbound := h.bound
  have hhides := h.hides
  revert hbound hhides hslot
  rw [Symbols.tables, Frames.scopes]
  generalize sy.blocks = ts
  generalize fs.locals = ls
  intro hslot hbound hhides
  induction hhides with
  | nil =>
    obtain ⟨v, c, hv, hc, hm⟩ := (List.forall₂_cons.1 hbound).1 name slot (by simpa using hslot)
    exact ⟨v, c, by simpa using hv, hc, hm⟩
  | @cons t f ts ls hhide _ ih =>
    obtain ⟨hfirst, hrest⟩ := List.forall₂_cons.1 hbound
    rw [List.cons_append, List.findSome?_cons] at hslot ⊢
    cases ht : t[name]? with
    | some slot' =>
      rw [ht] at hslot
      cases hslot
      obtain ⟨v, c, hv, hc, hm⟩ := hfirst name slot ht
      exact ⟨v, c, by rw [hv], hc, hm⟩
    | none =>
      rw [ht] at hslot
      rw [hhide name ht]
      exact ih hslot hrest

/-! ### Blocks -/

theorem Tracks.nest (h : Tracks sy fs g) : Tracks sy.nest fs.nest g where
  size := h.size
  bound := .cons (fun _ _ hslot => nomatch Std.HashMap.getElem?_empty.symm.trans hslot) h.bound
  hides := .cons (fun _ _ => rfl) h.hides

theorem Tracks.unnest (h : Tracks sy fs g) (hsy : sy.blocks ≠ []) : Tracks sy.unnest fs.unnest g := by
  obtain ⟨globals, blocks, size⟩ := sy
  obtain ⟨fglobals, locals⟩ := fs
  obtain ⟨hsize, hbound, hhides⟩ := h
  cases hhides with
  | nil => exact absurd rfl hsy
  | cons _ hhides => exact ⟨hsize, (List.forall₂_cons.1 hbound).2, hhides⟩

theorem Tracks.of_sameNames (h : Tracks sy fs g) (hs : SameNames sy sy') : Tracks sy' fs g where
  size := h.size
  bound := by
    rw [Symbols.tables, hs.globals, hs.blocks]
    exact h.bound
  hides := by
    rw [hs.blocks]
    exact h.hides

/-! ### Declarations and assignments -/

/-- Slots of the other tables are not changed. -/
theorem Bound.set_others {ts : List Table} {fs : List Frame} (h : List.Forall₂ (Bound g) ts fs)
    (hslot : ∀ t ∈ ts, ∀ name : String, t[name]? ≠ some slot) :
    List.Forall₂ (Bound (g.setIfInBounds slot c)) ts fs := by
  induction h with
  | nil => exact .nil
  | cons hb _ ih =>
    exact .cons (hb.set_other (hslot _ List.mem_cons_self)) (ih fun t ht => hslot t (List.mem_cons_of_mem _ ht))

/-- A name of the innermost table gets a value in the innermost frame. -/
theorem Bound.update_first {ts : List Table} {fs : List Frame} (h : List.Forall₂ (Bound g) (t :: ts) (f :: fs))
    (hsep : Separate (t' :: ts)) (hlt : slot < g.size) (hm : Mirrors v c)
    (hf : ∀ other, f'.get? other = if other = name then some v else f.get? other)
    (ht : ∀ other : String, t'[other]? = if other = name then some slot else t[other]?) :
    List.Forall₂ (Bound (g.setIfInBounds slot c)) (t' :: ts) (f' :: fs) := by
  obtain ⟨hfirst, hrest⟩ := List.forall₂_cons.1 h
  have hname : t'[name]? = some slot := by rw [ht, if_pos rfl]
  refine .cons (hfirst.update hlt hm hf ht fun other hother => ?_) (Bound.set_others hrest fun u hu other => ?_)
  · exact hsep.inside t' List.mem_cons_self other name slot hother hname
  · exact (List.pairwise_cons.1 hsep.between).1 u hu name other slot hname

theorem Tracks.define (h : Tracks sy fs g) (hsy : sy.FromEdits) (name : String)
    (hlt : (sy.define name).1 < globalsSize) (hm : Mirrors v c) :
    Tracks (sy.define name).2 (fs.insert name v) (g.setIfInBounds (sy.define name).1 c) := by
  have hsep := (hsy.define name).separate
  obtain ⟨hsize, hbound, hhides⟩ := h
  have hlt : (sy.define name).1 < g.size := hsize ▸ hlt
  have hsize' : (g.setIfInBounds (sy.define name).1 c).size = globalsSize := by
    rw [Array.size_setIfInBounds, hsize]
  rw [Symbols.tables] at hbound hsep
  rw [Frames.scopes] at hbound
  obtain ⟨fglobals, locals⟩ := fs
  cases hblocks : sy.blocks with
  | nil =>
    obtain ⟨hblocks', hglobals⟩ := Symbols.define_global hblocks name
    rw [hblocks] at hbound hhides
    rw [hblocks'] at hsep
    cases hhides
    refine ⟨hsize', ?_, ?_⟩
    · rw [Symbols.tables, hblocks']
      exact Bound.update_first hbound hsep hlt hm (fun other => Frame.get?_insert) hglobals
    · rw [hblocks']
      exact .nil
  | cons t ts =>
    obtain ⟨hglobals, t', hblocks', ht⟩ := Symbols.define_local hblocks name
    rw [hblocks] at hbound hhides
    rw [hblocks', hglobals] at hsep
    cases hhides with
    | cons hhide hhides =>
      refine ⟨hsize', ?_, ?_⟩
      · rw [Symbols.tables, hblocks', hglobals]
        exact Bound.update_first hbound hsep hlt hm (fun other => Frame.get?_insert) ht
      · rw [hblocks']
        exact .cons (hhide.update (fun other => Frame.get?_insert) ht) hhides

theorem Separate.tail {ts : List Table} (h : Separate (t :: ts)) : Separate ts where
  inside u hu := h.inside u (List.mem_cons_of_mem _ hu)
  between := (List.pairwise_cons.1 h.between).2

theorem get?_replace_of_eq_some {w : Value} (hw : f.get? name = some w) (other : String) :
    (f.replace name v).get? other = if other = name then some v else f.get? other := by
  rw [Frame.get?_replace, hw]
  rfl

/-- A name that has a slot is found in the local frames or is a global variable. -/
theorem assignIn_bound {ts : List Table} {ls : List Frame} (hhides : List.Forall₂ Hides ts ls)
    (hbound : List.Forall₂ (Bound g) (ts ++ [t]) (ls ++ [f])) (hsep : Separate (ts ++ [t]))
    (hslot : (ts ++ [t]).findSome? (·[name]?) = some slot) (hlt : slot < g.size) (hm : Mirrors v c) :
    match Frames.assignIn name v ls with
    | some ls' => List.Forall₂ (Bound (g.setIfInBounds slot c)) (ts ++ [t]) (ls' ++ [f]) ∧
        List.Forall₂ Hides ts ls'
    | none => (f.get? name).isSome ∧
        List.Forall₂ (Bound (g.setIfInBounds slot c)) (ts ++ [t]) (ls ++ [f.replace name v]) := by
  induction hhides with
  | nil =>
    have ht : t[name]? = some slot := by simpa using hslot
    obtain ⟨w, -, hw, -⟩ := (List.forall₂_cons.1 hbound).1 name slot ht
    refine ⟨Option.isSome_iff_exists.2 ⟨w, hw⟩, ?_⟩
    refine Bound.update_first hbound hsep hlt hm (get?_replace_of_eq_some hw) fun other => ?_
    split
    · next heq => exact heq ▸ ht
    · rfl
  | @cons u l ts ls hhide hhides ih =>
    rw [List.cons_append] at hbound hsep hslot
    rw [List.cons_append] at hbound
    rw [List.findSome?_cons] at hslot
    obtain ⟨hfirst, hrest⟩ := List.forall₂_cons.1 hbound
    rw [Frames.assignIn]
    cases hu : u[name]? with
    | some slot' =>
      rw [hu] at hslot
      cases hslot
      obtain ⟨w, -, hw, -⟩ := hfirst name slot hu
      have ht : ∀ other : String, u[other]? = if other = name then some slot else u[other]? := by
        intro other
        split
        · next heq => exact heq ▸ hu
        · rfl
      rw [hw, Option.isSome_some, if_pos rfl]
      exact ⟨Bound.update_first hbound hsep hlt hm (get?_replace_of_eq_some hw) ht,
        .cons (hhide.update (get?_replace_of_eq_some hw) ht) hhides⟩
    | none =>
      rw [hu] at hslot
      -- the slot belongs to a name further out, so to no name of this block
      have hother : Bound (g.setIfInBounds slot c) u l := by
        obtain ⟨t', ht', hname⟩ := List.exists_of_findSome?_eq_some hslot
        exact hfirst.set_other fun other hslot' =>
          (List.pairwise_cons.1 hsep.between).1 t' ht' other name slot hslot' hname
      have := ih hrest hsep.tail hslot
      rw [hhide name hu, Option.isSome_none, if_neg Bool.false_ne_true]
      cases hin : Frames.assignIn name v ls with
      | some ls' =>
        rw [hin] at this
        exact ⟨.cons hother this.1, .cons hhide this.2⟩
      | none =>
        rw [hin] at this
        exact ⟨this.1, .cons hother this.2⟩

/-- The nearest variable of a name is changed in its frame and in its slot. -/
theorem Tracks.assign (h : Tracks sy fs g) (hsy : sy.FromEdits) (hslot : sy.resolve? name = some slot)
    (hlt : slot < globalsSize) (hm : Mirrors v c) :
    ∃ fs', fs.assign? name v = some fs' ∧ Tracks sy fs' (g.setIfInBounds slot c) := by
  obtain ⟨hsize, hbound, hhides⟩ := h
  rw [Symbols.resolve?_eq_findSome?] at hslot
  have hassign := assignIn_bound hhides hbound hsy.separate hslot (hsize ▸ hlt) hm
  have hsize' : (g.setIfInBounds slot c).size = globalsSize := by
    rw [Array.size_setIfInBounds, hsize]
  unfold Frames.assign?
  cases hin : Frames.assignIn name v fs.locals with
  | some ls =>
    rw [hin] at hassign
    exact ⟨_, rfl, hsize', hassign.1, hassign.2⟩
  | none =>
    rw [hin] at hassign
    dsimp only
    rw [if_pos hassign.1]
    exact ⟨_, rfl, hsize', hassign.2, hhides⟩

end

end TinyScript.Bytecode
