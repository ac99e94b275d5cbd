import Mathlib.Data.List.Induction
import TinyScript.Proofs.Bytecode.Scopes

/-!
# Slots over the history of a table

A slot belongs to one name in one scope for good: it is not given out again in another scope, under another
name or after its scope was closed. The table of names forgets closed scopes, so this is stated of the
history of its edits (`Symbols.History`), where scopes have numbers in the order in which they were opened
and every answer is kept. An edit keeps the table in agreement with the history (`Recorded.step`), and the
history settles all answers of the table (`slots_never_shared`).
-/

namespace TinyScript.Bytecode.Symbols

/-- The names of each open scope, innermost first; the globals are the last. -/
def tables (sy : Symbols) : List (Std.HashMap String Nat) :=
  sy.blocks ++ [sy.globals]

variable {sy : Symbols} {name other : String} {slot : Nat}

theorem map_tables (sy : Symbols) (name : String) :
    sy.tables.map (·[name]?) = sy.here? name :: sy.tables.tail.map (·[name]?) := by
  obtain ⟨globals, blocks, size⟩ := sy
  cases blocks <;> rfl

theorem resolve?_eq_findSome? (sy : Symbols) (name : String) :
    sy.resolve? name = sy.tables.findSome? (·[name]?) := by
  rw [tables, List.findSome?_append, List.findSome?_singleton]
  rfl

/-- Only the innermost scope can get a name. -/
theorem tail_tables_define : (sy.define name).2.tables.tail = sy.tables.tail := by
  obtain ⟨globals, blocks, size⟩ := sy
  cases blocks with
  | nil =>
    simp only [define]
    split <;> rfl
  | cons block outer =>
    simp only [define]
    split <;> rfl

/-- What changes a table of names. -/
inductive Edit where
  | nest
  | unnest
  | define (name : String)

/-- A name that was defined in a scope, and the slot that was the answer. -/
structure Grant where
  scope : Nat
  name : String
  slot : Nat
  deriving DecidableEq

/-- A table of names with all that happened to it. The blocks have the numbers from 1 on, in the order in
which they were opened, and the globals are the scope with number 0. -/
structure History where
  table : Symbols := {}
  /-- How many blocks were opened. -/
  opened : Nat := 0
  /-- The open blocks, innermost first. -/
  blocks : List Nat := []
  /-- The answers, oldest first. -/
  grants : List Grant := []

namespace History

/-- The open scopes, innermost first. -/
def scopes (h : History) : List Nat :=
  h.blocks ++ [0]

/-- The innermost scope. -/
def scope (h : History) : Nat :=
  h.blocks.headD 0

/-- The slot that a name got in a scope when it was first defined there. -/
def slot? (h : History) (scope : Nat) (name : String) : Option Nat :=
  (h.grants.find? fun g => g.scope = scope ∧ g.name = name).map Grant.slot

/-- An edit makes a symbol: it defines a name that the innermost scope does not have. -/
def creates (h : History) : Edit → Bool
  | .nest | .unnest => false
  | .define name => (h.slot? h.scope name).isNone

/-- The history with one more edit. -/
def step (h : History) : Edit → History
  | .nest => { h with
      table := h.table.nest, opened := h.opened + 1, blocks := (h.opened + 1) :: h.blocks }
  | .unnest => { h with table := h.table.unnest, blocks := h.blocks.tail }
  | .define name => { h with
      table := (h.table.define name).2
      grants := h.grants ++ [⟨h.scope, name, (h.table.define name).1⟩] }

/-- The history of edits of the empty table. -/
def ofEdits (edits : List Edit) : History :=
  edits.foldl step {}

variable {h : History} {k : Nat}

theorem mem_of_slot? (hslot : h.slot? k name = some slot) : ⟨k, name, slot⟩ ∈ h.grants := by
  obtain ⟨g, hfind, rfl⟩ := Option.map_eq_some_iff.1 hslot
  obtain ⟨rfl, rfl⟩ : g.scope = k ∧ g.name = name := by simpa using List.find?_some hfind
  exact List.mem_of_find?_eq_some hfind

theorem slot?_eq_none_iff : h.slot? k name = none ↔ ∀ g ∈ h.grants, ¬(g.scope = k ∧ g.name = name) := by
  rw [slot?, Option.map_eq_none_iff, List.find?_eq_none]
  simp only [decide_eq_true_eq]

/-- Only the name that is defined can get a slot, and only in the innermost scope. -/
theorem slot?_define : (h.step (.define name)).slot? k other = (h.slot? k other).or
    (if h.scope = k ∧ name = other then some (h.table.define name).1 else none) := by
  simp only [slot?, step, List.find?_append, List.find?_singleton, Option.map_or, decide_eq_true_eq,
    apply_ite (Option.map Grant.slot)]
  rfl

theorem scopes_eq (h : History) : h.scopes = h.scope :: h.scopes.tail := by
  obtain ⟨table, opened, blocks, grants⟩ := h
  cases blocks <;> rfl

/-! ### Agreement of the table -/

/-- The table is the one that the answers so far make, and a slot is an answer for one name in one scope. -/
structure Recorded (h : History) : Prop where
  tables : ∀ name, h.table.tables.map (·[name]?) = h.scopes.map (h.slot? · name)
  nodup : h.scopes.Nodup
  scope_le : ∀ k ∈ h.scopes, k ≤ h.opened
  grant_le : ∀ g ∈ h.grants, g.scope ≤ h.opened
  lt_size_iff : ∀ slot, slot < h.table.size ↔ ∃ g ∈ h.grants, g.slot = slot
  apart : ∀ g ∈ h.grants, ∀ g' ∈ h.grants, g.slot = g'.slot ↔ g.scope = g'.scope ∧ g.name = g'.name

namespace Recorded

theorem empty : Recorded {} where
  tables _ := congrArg ([·]) Std.HashMap.getElem?_empty
  nodup := List.nodup_cons.2 ⟨List.not_mem_nil, .nil⟩
  scope_le k hk := Nat.le_of_eq (List.mem_singleton.1 hk)
  grant_le _ hg := by cases hg
  lt_size_iff _ := ⟨fun hlt => absurd hlt (Nat.not_lt_zero _), fun ⟨_, hg, _⟩ => by cases hg⟩
  apart _ hg := by cases hg

theorem here?_eq (hr : h.Recorded) (name : String) : h.table.here? name = h.slot? h.scope name := by
  have hmap := hr.tables name
  rw [map_tables, scopes_eq, List.map_cons] at hmap
  exact (List.cons.inj hmap).1

theorem tail_tables (hr : h.Recorded) (name : String) :
    h.table.tables.tail.map (·[name]?) = h.scopes.tail.map (h.slot? · name) := by
  rw [List.map_tail, List.map_tail, hr.tables]

theorem resolve?_eq (hr : h.Recorded) (name : String) :
    h.table.resolve? name = h.scopes.findSome? (h.slot? · name) := by
  have hmap := congrArg (List.findSome? id) (hr.tables name)
  rw [List.findSome?_map, List.findSome?_map] at hmap
  exact (h.table.resolve?_eq_findSome? name).trans hmap

/-! ### Blocks -/

theorem nest (hr : h.Recorded) : (h.step .nest).Recorded where
  tables name := by
    have hnew : h.slot? (h.opened + 1) name = none := slot?_eq_none_iff.2 fun g hg heq =>
      Nat.not_succ_le_self _ (heq.1 ▸ hr.grant_le g hg)
    show (∅ : Std.HashMap String Nat)[name]? :: h.table.tables.map (·[name]?) =
      h.slot? (h.opened + 1) name :: h.scopes.map (h.slot? · name)
    rw [hnew, hr.tables, Std.HashMap.getElem?_empty]
  nodup := List.nodup_cons.2 ⟨fun hmem => Nat.not_succ_le_self _ (hr.scope_le _ hmem), hr.nodup⟩
  scope_le k hk := by
    rcases List.mem_cons.1 hk with rfl | hk
    · exact Nat.le_refl _
    · exact Nat.le_succ_of_le (hr.scope_le k hk)
  grant_le g hg := Nat.le_succ_of_le (hr.grant_le g hg)
  lt_size_iff := hr.lt_size_iff
  apart := hr.apart

theorem unnest (hr : h.Recorded) : (h.step .unnest).Recorded where
  tables name := by
    have hmap := hr.tables name
    rw [Symbols.tables, scopes, List.map_append, List.map_append] at hmap
    obtain ⟨hblocks, hglobals⟩ := List.append_inj' hmap rfl
    show (h.table.blocks.tail ++ [h.table.globals]).map (·[name]?) =
      (h.blocks.tail ++ [0]).map (h.slot? · name)
    rw [List.map_append, List.map_append, List.map_tail, List.map_tail, hblocks, hglobals]
  nodup := hr.nodup.sublist ((List.tail_sublist _).append_right _)
  scope_le k hk := hr.scope_le k (((List.tail_sublist _).append_right _).subset hk)
  grant_le := hr.grant_le
  lt_size_iff := hr.lt_size_iff
  apart := hr.apart

/-! ### Definitions -/

/-- A name that the innermost scope has keeps its slot, and nothing changes. -/
theorem define_of_slot? (hr : h.Recorded) (hslot : h.slot? h.scope name = some slot) :
    h.table.define name = (slot, h.table) :=
  define_of_here?_eq_some ((hr.here?_eq name).trans hslot)

/-- A name that the innermost scope does not have gets the next slot. -/
theorem define_of_slot?_eq_none (hr : h.Recorded) (hslot : h.slot? h.scope name = none) :
    (h.table.define name).1 = h.table.size ∧ (h.table.define name).2.size = h.table.size + 1 :=
  have hspec := define_of_here?_eq_none ((hr.here?_eq name).trans hslot)
  ⟨hspec.1, hspec.2.1⟩

theorem slot_lt (hr : h.Recorded) {g : Grant} (hg : g ∈ h.grants) : g.slot < h.table.size :=
  (hr.lt_size_iff g.slot).2 ⟨g, hg, rfl⟩

theorem tables_define (hr : h.Recorded) (name other : String) :
    (h.table.define name).2.tables.map (·[other]?) =
      h.scopes.map ((h.step (.define name)).slot? · other) := by
  have hhere : (h.table.define name).2.here? other = (h.step (.define name)).slot? h.scope other := by
    rw [here?_define, slot?_define, hr.here?_eq]
    by_cases heq : other = name
    · subst heq
      rw [if_pos rfl, if_pos ⟨rfl, rfl⟩]
      cases hslot : h.slot? h.scope other with
      | none => rfl
      | some slot => rw [hr.define_of_slot? hslot]; rfl
    · rw [if_neg heq, if_neg fun hboth => heq hboth.2.symm, Option.or_none]
  -- a scope has one number, so the outer ones are not the innermost
  have houter : ∀ k ∈ h.scopes.tail, h.slot? k other = (h.step (.define name)).slot? k other := by
    intro k hk
    have hne : h.scope ≠ k := by
      rintro rfl
      exact (List.nodup_cons.1 (h.scopes_eq ▸ hr.nodup)).1 hk
    rw [slot?_define, if_neg fun hboth => hne hboth.1, Option.or_none]
  rw [map_tables, tail_tables_define, hr.tail_tables, hhere, List.map_congr_left houter]
  rw [h.scopes_eq]
  rfl

theorem mem_grants_define {g : Grant} : g ∈ (h.step (.define name)).grants ↔
    g ∈ h.grants ∨ g = ⟨h.scope, name, (h.table.define name).1⟩ :=
  List.mem_append.trans (or_congr_right List.mem_singleton)

/-- The answer for a name that the innermost scope has was given before. -/
theorem mem_grants_define_of_slot? (hr : h.Recorded) (hslot : h.slot? h.scope name = some slot)
    {g : Grant} : g ∈ (h.step (.define name)).grants ↔ g ∈ h.grants := by
  rw [mem_grants_define, hr.define_of_slot? hslot]
  exact or_iff_left_of_imp fun heq => heq ▸ mem_of_slot? hslot

/-- A slot that was not given out before keeps the answers apart. -/
theorem apart_concat (hr : h.Recorded) {new : Grant} (hslot : h.slot? new.scope new.name = none)
    (hsize : new.slot = h.table.size) :
    ∀ g ∈ h.grants ++ [new], ∀ g' ∈ h.grants ++ [new],
      g.slot = g'.slot ↔ g.scope = g'.scope ∧ g.name = g'.name := by
  have hold : ∀ g ∈ h.grants, g.slot ≠ new.slot ∧ ¬(g.scope = new.scope ∧ g.name = new.name) :=
    fun g hg => ⟨hsize ▸ Nat.ne_of_lt (hr.slot_lt hg), slot?_eq_none_iff.1 hslot g hg⟩
  simp only [List.forall_mem_append, List.forall_mem_singleton]
  refine ⟨fun g hg => ⟨hr.apart g hg, ?_⟩, fun g hg => ?_, iff_of_true trivial ⟨trivial, trivial⟩⟩
  · exact iff_of_false (hold g hg).1 (hold g hg).2
  · exact iff_of_false (hold g hg).1.symm fun heq => (hold g hg).2 ⟨heq.1.symm, heq.2.symm⟩

theorem define (hr : h.Recorded) (name : String) : (h.step (.define name)).Recorded where
  tables := hr.tables_define name
  nodup := hr.nodup
  scope_le := hr.scope_le
  grant_le g hg := by
    rcases mem_grants_define.1 hg with hg | rfl
    · exact hr.grant_le g hg
    · exact hr.scope_le h.scope (h.scopes_eq ▸ List.mem_cons_self)
  lt_size_iff slot := by
    cases hslot : h.slot? h.scope name with
    | some given =>
      simp only [hr.mem_grants_define_of_slot? hslot]
      show slot < (h.table.define name).2.size ↔ _
      rw [hr.define_of_slot? hslot, hr.lt_size_iff]
    | none =>
      obtain ⟨hgiven, hsize⟩ := hr.define_of_slot?_eq_none hslot
      show slot < (h.table.define name).2.size ↔ _
      simp only [mem_grants_define, or_and_right, exists_or, exists_eq_left]
      rw [hsize, hgiven, Nat.lt_succ_iff_lt_or_eq, hr.lt_size_iff, eq_comm]
  apart := by
    cases hslot : h.slot? h.scope name with
    | some given =>
      intro g hg g' hg'
      exact hr.apart g ((hr.mem_grants_define_of_slot? hslot).1 hg) g'
        ((hr.mem_grants_define_of_slot? hslot).1 hg')
    | none => exact hr.apart_concat hslot (hr.define_of_slot?_eq_none hslot).1

/-! ### Runs -/

theorem step (hr : h.Recorded) (e : Edit) : (h.step e).Recorded := by
  cases e with
  | nest => exact hr.nest
  | unnest => exact hr.unnest
  | define name => exact hr.define name

theorem ofEdits (edits : List Edit) : (ofEdits edits).Recorded := by
  induction edits using List.reverseRecOn with
  | nil => exact empty
  | append_singleton edits e ih =>
    rw [History.ofEdits, List.foldl_concat]
    exact ih.step e

/-- The number of slots grows by one for an edit that makes a symbol, and else it stays. -/
theorem size_step (hr : h.Recorded) (e : Edit) :
    (h.step e).table.size = h.table.size + (h.creates e).toNat := by
  cases e with
  | nest => rfl
  | unnest => rfl
  | define name =>
    show (h.table.define name).2.size = _ + ((h.slot? h.scope name).isNone).toNat
    cases hslot : h.slot? h.scope name with
    | some slot => rw [hr.define_of_slot? hslot]; rfl
    | none => exact (hr.define_of_slot?_eq_none hslot).2

/-- A symbol that is made gets a slot that was no answer before. -/
theorem slot_ne_of_creates (hr : h.Recorded) (hcreates : h.creates (.define name)) {g : Grant}
    (hg : g ∈ h.grants) : g.slot ≠ (h.table.define name).1 := by
  rw [(hr.define_of_slot?_eq_none (Option.isNone_iff_eq_none.1 hcreates)).1]
  exact Nat.ne_of_lt (hr.slot_lt hg)

/-- What an open scope has for a name was the answer for it there. -/
theorem grant_of_tables (hr : h.Recorded) {i : Nat} {table : Std.HashMap String Nat}
    (hi : h.table.tables[i]? = some table) (hslot : table[name]? = some slot) :
    ∃ k, h.scopes[i]? = some k ∧ ⟨k, name, slot⟩ ∈ h.grants := by
  have hmap := congrArg (·[i]?) (hr.tables name)
  simp only [List.getElem?_map, hi, Option.map_some, hslot] at hmap
  obtain ⟨k, hk, hgiven⟩ := Option.map_eq_some_iff.1 hmap.symm
  exact ⟨k, hk, mem_of_slot? hgiven⟩

/-- Different open scopes and different names share no slot. -/
theorem eq_of_tables (hr : h.Recorded) {i j : Nat} {table table' : Std.HashMap String Nat}
    (hi : h.table.tables[i]? = some table) (hj : h.table.tables[j]? = some table')
    (hname : table[name]? = some slot) (hother : table'[other]? = some slot) : i = j ∧ name = other := by
  obtain ⟨k, hk, hg⟩ := hr.grant_of_tables hi hname
  obtain ⟨k', hk', hg'⟩ := hr.grant_of_tables hj hother
  obtain ⟨rfl, hnames⟩ : k = k' ∧ name = other := (hr.apart _ hg _ hg').1 rfl
  obtain ⟨hlt, hget⟩ := List.getElem?_eq_some_iff.1 hk
  exact ⟨(List.getElem?_inj hlt hr.nodup).1 (hk.trans hk'.symm), hnames⟩

end Recorded

/-- After any edits of the empty table, and whatever edit comes next:
* every symbol of the table, hidden ones too, has a slot below its size;
* symbols of different scopes or of different names have different slots;
* the slots below the size are those that were answers, and two answers, also for scopes that are closed
  since, have one slot exactly if they are for one name in one scope;
* a symbol that is made gets a slot that was no answer before, and the size grows by one exactly for these;
* an open scope has the slots that its names got in it, and a name stands for the slot that it got in the
  innermost open scope that has it. -/
theorem slots_never_shared (edits : List Edit) :
    let h := ofEdits edits
    (∀ table ∈ h.table.tables, ∀ (name : String) (slot : Nat),
        table[name]? = some slot → slot < h.table.size) ∧
      (∀ (i j : Nat) (table table' : Std.HashMap String Nat) (name name' : String) (slot : Nat),
        h.table.tables[i]? = some table → h.table.tables[j]? = some table' →
          table[name]? = some slot → table'[name']? = some slot → i = j ∧ name = name') ∧
      (∀ slot, slot < h.table.size ↔ ∃ g ∈ h.grants, g.slot = slot) ∧
      (∀ g ∈ h.grants, ∀ g' ∈ h.grants, g.slot = g'.slot ↔ g.scope = g'.scope ∧ g.name = g'.name) ∧
      (∀ name, h.creates (.define name) → ∀ g ∈ h.grants, g.slot ≠ (h.table.define name).1) ∧
      (∀ e, (h.step e).table.size = h.table.size + (h.creates e).toNat) ∧
      (∀ name, h.table.tables.map (·[name]?) = h.scopes.map (h.slot? · name)) ∧
      ∀ name, h.table.resolve? name = h.scopes.findSome? (h.slot? · name) := by
  intro h
  have hr : h.Recorded := .ofEdits edits
  refine ⟨fun table htable name slot hslot => ?_, fun i j table table' name name' slot => ?_,
    hr.lt_size_iff, hr.apart, fun name hcreates g => hr.slot_ne_of_creates hcreates, hr.size_step, hr.tables,
    hr.resolve?_eq⟩
  · obtain ⟨i, hi⟩ := List.mem_iff_getElem?.1 htable
    obtain ⟨k, -, hg⟩ := hr.grant_of_tables hi hslot
    exact hr.slot_lt hg
  · exact hr.eq_of_tables

/-- One name in three scopes: the globals and two blocks after each other, with one block too many closed
between them. -/
def shadowing : List Edit :=
  [.define "a", .nest, .define "a", .unnest, .unnest, .nest, .define "a", .define "a"]

theorem shadowing_slots :
    let h := ofEdits shadowing
    h.grants = [⟨0, "a", 0⟩, ⟨1, "a", 1⟩, ⟨2, "a", 2⟩, ⟨2, "a", 2⟩] ∧
      (∃ table ∈ h.table.tables, h.table.tables[0]? = some table ∧ table["a"]? = some 2 ∧
        2 < h.table.size ∧ ∀ (j : Nat) (table' : Std.HashMap String Nat) (name : String),
          h.table.tables[j]? = some table' → table'[name]? = some 2 → 0 = j ∧ "a" = name) ∧
      h.creates (.define "b") ∧ (∀ g ∈ h.grants, g.slot ≠ (h.table.define "b").1) ∧
      h.table.resolve? "a" = some 2 := by
  have hgrants : (ofEdits shadowing).grants = [⟨0, "a", 0⟩, ⟨1, "a", 1⟩, ⟨2, "a", 2⟩, ⟨2, "a", 2⟩] := by
    simp [ofEdits, shadowing, step, Symbols.define, nest, unnest, scope]
  have hslots : (ofEdits shadowing).table.tables.map (·["a"]?) = [some 2, some 0] := by
    simp [ofEdits, shadowing, step, Symbols.define, nest, unnest, tables]
  have hcreates : (ofEdits shadowing).creates (.define "b") := by decide
  obtain ⟨hbelow, happart, -, -, hfresh, -, -, hresolve⟩ := slots_never_shared shadowing
  have hname : (ofEdits shadowing).table.resolve? "a" = some 2 := by
    rw [hresolve]
    simp only [slot?, hgrants]
    rfl
  intro h
  obtain ⟨table, hinner, hslot⟩ : ∃ table, h.table.tables[0]? = some table ∧ table["a"]? = some 2 :=
    Option.map_eq_some_iff.1 (List.getElem?_map.symm.trans (congrArg (·[0]?) hslots))
  have hmem := List.mem_of_getElem? hinner
  exact ⟨hgrants, ⟨table, hmem, hinner, hslot, hbelow table hmem "a" 2 hslot,
    fun j table' name hj hname => happart 0 j table table' "a" name 2 hinner hj hslot hname⟩, hcreates,
    hfresh "b" hcreates, hname⟩

end History
end TinyScript.Bytecode.Symbols
