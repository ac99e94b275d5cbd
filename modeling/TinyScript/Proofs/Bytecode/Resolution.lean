import TinyScript.Proofs.Binding.Programs
import TinyScript.Proofs.Bytecode.Lookups

/-!
# Names in compiled programs

The compiler finds the names of a program where the parser does (`compile_resolves`): variables have slots
by declaration, and code reads and writes the slot of the nearest declaration around. The only names that
it misses are those of the variables that the host declares.
-/

namespace TinyScript.Bytecode
open Assemble

/-! ### Slots in code -/

theorem map_snd_listing (p : Nat) (is : List Instr) : (listing p is).map Prod.snd = is := by
  induction is generalizing p with
  | nil => rfl
  | cons i is ih => rw [listing, List.map_cons, ih]

variable {a : Assembly} {p : Program}

/-- The code of a program uses the slots that its instructions use. -/
theorem Holds.accesses_eq (h : Holds a p) : a.code.accesses = accesses (programInstrs p) := by
  have hsize : 0 + sizeAll (programInstrs p) = a.code.size := by
    rw [h.size_code, Nat.zero_add]
    exact (regular_stmtsChunk {} false p.stmts).sizeAll_code _ _ _
  have hitems : a.code.items.toList = (listing 0 (programInstrs p)).map fun e => (e.1, e.2.item) := by
    rw [Code.items, itemsFrom_of_placed h.placed hsize]
    rfl
  rw [Code.accesses, hitems, List.filterMap_map]
  have hsnd := congrArg accesses (map_snd_listing 0 (programInstrs p))
  rw [accesses, List.filterMap_map] at hsnd
  exact hsnd

theorem stmtsSlots_append (sy : Symbols) (ss ss' : List Stmt) :
    stmtsSlots sy (ss ++ ss') = stmtsSlots sy ss ++ stmtsSlots (stmtsSymbols sy ss) ss' := by
  induction ss generalizing sy with
  | nil => rw [stmtsSlots, stmtsSymbols]; rfl
  | cons s ss ih => rw [List.cons_append, stmtsSlots, ih, stmtsSlots, stmtsSymbols, List.append_assoc]

theorem agree_empty (slot : Nat → Nat) : Agree slot {} [] := by
  intro name
  show (none : Option Nat).or (∅ : Std.HashMap String Nat)[name]? = none
  rw [Std.HashMap.getElem?_empty]
  rfl

/-! ### Slots of a program -/

/-- The slot of the declaration with a number. -/
def slotOf (p : Program) (n : Nat) : Nat :=
  ((stmtsSlots {} p.stmts)[n]?.map Prod.snd).getD 0

theorem gives_slotOf (p : Program) : Gives (slotOf p) 0 (stmtsSlots {} p.stmts) := by
  intro i d hd
  rw [slotOf, Nat.zero_add, hd]
  rfl

theorem slotOf_eq {n : Nat} {x : String} (h : p.binders[n]? = some x) :
    (stmtsSlots {} p.stmts)[n]? = some (x, slotOf p n) := by
  rw [Program.binders, ← map_fst_stmtsSlots {}, List.getElem?_map] at h
  obtain ⟨d, hd, rfl⟩ := Option.map_eq_some_iff.1 h
  rw [slotOf, hd]
  rfl

/-- Different declarations have different slots, unless both are anonymous. -/
theorem slotOf_apart {prelude : Prelude} (h : p.Closed prelude) {i j : Nat} {x y : String}
    (hi : p.binders[i]? = some x) (hj : p.binders[j]? = some y) (heq : slotOf p i = slotOf p j) :
    i = j ∨ x = "_" ∧ y = "_" := by
  obtain ⟨hi, hx⟩ := List.getElem?_eq_some_iff.1 (slotOf_eq hi)
  obtain ⟨hj, hy⟩ := List.getElem?_eq_some_iff.1 (slotOf_eq hj)
  have hapart := List.pairwise_iff_getElem.1 (Recorded.program h).apart
  rcases Nat.lt_trichotomy i j with hlt | rfl | hlt
  · have hij := hapart i j hi hj hlt
    rw [hx, hy] at hij
    exact .inr (hij heq)
  · exact .inl rfl
  · have hji := hapart j i hj hi hlt
    rw [hx, hy] at hji
    exact .inr (hji heq.symm).symm

theorem compile_missing {x : String} (h : ({} : Assembly).compile p = .error (.undefinedVar x)) :
    Missing p.uses x := by
  unfold Assembly.compile at h
  cases hrun : (compileStmts p.stmts).run {} with
  | error e =>
    rw [hrun] at h
    cases h
    exact (compileStmts_looks p.stmts).error (agree_empty _) (gives_slotOf p) hrun
  | ok r =>
    rw [hrun] at h
    cases h

/-- The code of a program uses the slots of the nearest declarations. -/
theorem compile_accesses {slot : Nat → Nat} (hslot : Gives slot 0 (stmtsSlots {} p.stmts))
    (h : ({} : Assembly).compile p = .ok a) :
    a.code.accesses.map (fun d => (d.1, some d.2)) = p.uses.map (Use.access slot) := by
  rw [(compile_holds h).accesses_eq]
  unfold Assembly.compile at h
  cases hrun : (compileStmts p.stmts).run {} with
  | error e =>
    rw [hrun] at h
    cases h
  | ok r =>
    obtain ⟨⟨⟩, b⟩ := r
    exact (compileStmts_looks p.stmts).ok (agree_empty slot) hslot hrun 0 0 placeholder

theorem global_standard {v : Var} (h : v ∈ Prelude.standard.globals) : v.name = "err" ∨ v.name = "errmsg" := by
  have hglobals : ∀ v ∈ Prelude.standard.globals, v.name = "err" ∨ v.name = "errmsg" := by decide
  exact hglobals v h

/-- A program that is read without problems is compiled with a slot for each of its declarations. The
statements of a program that have code, also those before one that has none, read and write the slots of
the nearest declarations of their names. A name without a slot is one of the two variables that the host
declares. -/
theorem compile_resolves {source : String} {p : Program} (h : Program.parse source .standard = .ok p) :
    (∀ x, ({} : Assembly).compile p = .error (.undefinedVar x) → x = "err" ∨ x = "errmsg") ∧
      Sited p.binders p.uses ∧ ∃ slot : Nat → Nat,
        (∀ stmts rest a, p.stmts = stmts ++ rest →
          ({} : Assembly).compile { p with stmts } = .ok a →
            a.code.accesses.map (fun d => (d.1, some d.2)) =
              (Program.uses { p with stmts }).map (Use.access slot)) ∧
        ∀ i j x y, p.binders[i]? = some x → p.binders[j]? = some y → slot i = slot j →
          i = j ∨ x = "_" ∧ y = "_" := by
  have hclosed : p.Closed .standard := by
    obtain ⟨hclean, rfl⟩ := Program.clean_of_parse h
    exact (Parsing.program_binds source .standard _ (fun _ => rfl) hclean).2
  refine ⟨fun x hx => ?_, p.sited, slotOf p, fun stmts rest a hstmts hcompile => ?_, fun i j x y => ?_⟩
  · obtain ⟨u, hu, rfl, hnone⟩ := compile_missing hx
    obtain ⟨v, hv, heq⟩ := hclosed.hostOnly u hu hnone
    exact heq ▸ global_standard hv
  · have hgives := gives_slotOf p
    rw [hstmts, stmtsSlots_append] at hgives
    exact compile_accesses hgives.left hcompile
  · exact slotOf_apart hclosed

/-- A program that declares one name in three blocks inside each other. -/
def nestedSource : String :=
  "n := true\nfor i := range [n]\n n := [i]\n while n[0]\n  n := i\n  i = n\n end\nend\nn = n\n"

/-- Whether these are the statements of a program that declares one name in three blocks inside each other. -/
def isNested : List Stmt → Bool
  | [.inferredDecl _ _ outer (.bool _ true),
      .each _ _ (some i) (.over (.array _ _ [.var _ elem])) (.mk _ _ [
        .inferredDecl _ _ middle (.array _ _ [.var _ middleElem]),
        .loop _ (.mk _ _ (.index _ (.var _ test) (.num ..)) (.mk _ _ [
          .inferredDecl _ _ inner (.var _ innerValue), .assign _ _ (.var _ target) (.var _ source)]))]),
      .assign _ _ (.var _ last) (.var _ lastValue)] =>
    outer.name = "n" ∧ i.name = "i" ∧ elem = "n" ∧ middle.name = "n" ∧ middleElem = "i" ∧ test = "n" ∧
      inner.name = "n" ∧ innerValue = "i" ∧ target = "i" ∧ source = "n" ∧ last = "n" ∧ lastValue = "n"
  | _ => false

theorem compileStmts_of_isNested {ss : List Stmt} (h : isNested ss) :
    ∃ a, (compileStmts ss).run {} = .ok ((), a) := by
  unfold isNested at h
  split at h
  · simp only [decide_eq_true_eq] at h
    obtain ⟨houter, hi, rfl, hmiddle, rfl, rfl, hinner, rfl, rfl, rfl, rfl, rfl⟩ := h
    -- the lemmas by name: with the others simp walks through the states of the compiler again and again
    simp only [compileStmts, compileStmt, compileDecl, compileExpr, compileList, compileAssign, compileBlock,
      compileHead, compileRange, loopBody, nested, patchAll, StateT.run_bind, StateT.run_modify,
      StateT.run_modifyGet, StateT.run_pure, pure_bind, bind_assoc, run_here, run_emit, run_put, run_emitConstant,
      run_patch, run_define, run_resolve, le_maxWord, placeholder, size_append_encode, size_patch, Opcode.size,
      Opcode.arity, Symbols.define, Symbols.resolve?, Symbols.nest, Symbols.unnest, Std.HashMap.getElem?_insert,
      Std.HashMap.getElem?_empty, beq_self_eq_true, String.reduceBEq, Bool.false_eq_true, ↓reduceIte,
      Option.none_or, Option.some_or, Option.elim_some, Option.isSome_some, List.findSome?_cons, List.findSome?_nil,
      List.mem_cons, List.not_mem_nil, List.tail_cons, List.length_cons, List.length_nil, List.size_toArray,
      List.forM_eq_forM, List.forM_nil, false_imp_iff, implies_true, or_false, forall_eq, forall_eq_or_imp, and_self,
      Nat.zero_le, Nat.zero_add, Nat.reduceAdd, Nat.reduceMul, Nat.reduceLeDiff, houter, hi, hmiddle, hinner]
    exact ⟨_, rfl⟩
  · cases h

theorem nestedSource_resolves : ∃ p a, Program.parse nestedSource .standard = .ok p ∧
    ({} : Assembly).compile p = .ok a ∧ p.binders = ["n", "i", "n", "n"] ∧
    p.uses.map Use.site = [0, 0, 1, 1, 2, 2, 1, 3, 3, 1, 0, 0].map some ∧
      ∃ slot : Nat → Nat, a.code.accesses.map (fun d => (d.1, some d.2)) = p.uses.map (Use.access slot) ∧
          slot 0 ≠ slot 2 ∧ slot 2 ≠ slot 3 := by
  have hparse : (Program.parse nestedSource .standard).toOption.any fun p =>
      isNested p.stmts && (p.binders == ["n", "i", "n", "n"] &&
        p.uses.map Use.site == [0, 0, 1, 1, 2, 2, 1, 3, 3, 1, 0, 0].map some) := by
    decide +kernel
  cases hp : Program.parse nestedSource .standard with
  | error problems =>
    rw [hp] at hparse
    cases hparse
  | ok p =>
    rw [hp] at hparse
    obtain ⟨hnested, hrest⟩ := Bool.and_eq_true_iff.1 hparse
    obtain ⟨hbinders, huses⟩ := Bool.and_eq_true_iff.1 hrest
    have hbinders := eq_of_beq hbinders
    obtain ⟨-, -, slot, haccesses, hapart⟩ := compile_resolves hp
    obtain ⟨a, hrun⟩ := compileStmts_of_isNested hnested
    have ha : ({} : Assembly).compile p = .ok a := by rw [Assembly.compile, hrun]; rfl
    refine ⟨p, a, rfl, ha, hbinders, eq_of_beq huses, slot, ?_, fun heq => ?_, fun heq => ?_⟩
    · exact haccesses p.stmts [] a (List.append_nil _).symm ha
    · rcases hapart 0 2 "n" "n" (by rw [hbinders]; rfl) (by rw [hbinders]; rfl) heq with h | h
      · cases h
      · exact absurd h.1 (by decide)
    · rcases hapart 2 3 "n" "n" (by rw [hbinders]; rfl) (by rw [hbinders]; rfl) heq with h | h
      · cases h
      · exact absurd h.1 (by decide)

end TinyScript.Bytecode
