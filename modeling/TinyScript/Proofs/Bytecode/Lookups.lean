import TinyScript.Proofs.Bytecode.Decoding
import TinyScript.Proofs.Bytecode.Scopes

/-!
# Looking up names

Which names the compiler looks up, in which order, and what becomes of them: the chunk of a phrase that is
compiled uses the slots of the names (`Chunk.Finds`), and a compilation that stops for want of a slot stops
at one of the names (`Looks` for expressions, `StmtLooks` for statements).

For statements this is put in terms of the text: where the table of names agrees with the declarations
around, the slots are those of the uses of the statement (`Stmt.uses`), and a name that is looked up in vain
has no declaration around. The proofs follow the compiler step by step, once for the steps that succeed
and once for the one that fails; `Sure` are the steps that look up nothing, so that they cannot be the one.
-/

namespace TinyScript.Bytecode
open Assemble

/-! ### Slots that code uses -/

/-- Whether an item of code writes a slot or reads it, and the slot. -/
def Code.Item.access? : Code.Item → Option (Bool × Nat)
  | .instr .getGlobal operands => some (false, operands.headD 0)
  | .instr .setGlobal operands => some (true, operands.headD 0)
  | _ => none

/-- The reads and writes of slots in code, in order. -/
def Code.accesses (code : Code) : List (Bool × Nat) :=
  code.items.toList.filterMap fun e => e.2.access?

/-- The reads and writes of slots in instructions. -/
def accesses (is : List Instr) : List (Bool × Nat) :=
  is.filterMap fun i => i.item.access?

section
variable {is js : List Instr} {i : Instr}

@[simp] theorem accesses_append : accesses (is ++ js) = accesses is ++ accesses js :=
  List.filterMap_append

theorem accesses_cons (h : i.item.access? = none) : accesses (i :: is) = accesses is :=
  List.filterMap_cons_none h

theorem access?_eq_none (h1 : i.op ≠ .getGlobal) (h2 : i.op ≠ .setGlobal) : i.item.access? = none := by
  obtain ⟨op, ns⟩ := i
  unfold Instr.item Code.Item.access?
  split
  · next heq => cases heq; exact absurd rfl h1
  · next heq => cases heq; exact absurd rfl h2
  · rfl

end

namespace Chunk
variable {c d e : Chunk} {l l' l'' : List (Bool × Option Nat)}

/-- The code uses these slots, and all of them are there. -/
def Finds (c : Chunk) (l : List (Bool × Option Nat)) : Prop :=
  ∀ k p x, (accesses (c.code k p x)).map (fun d => (d.1, some d.2)) = l

theorem finds_empty : Finds .empty [] := fun _ _ _ => rfl

theorem finds_const (v : Cell) : Finds (.const v) [] := fun _ _ _ => rfl

theorem finds_instr {i : Instr} (h : i.item.access? = none) : Finds (.instr i) [] := by
  intro _ _ _
  exact congrArg (List.map _) (accesses_cons h)

theorem Finds.seq (hc : c.Finds l) (hd : d.Finds l') : (c.seq d).Finds (l ++ l') := by
  intro k p x
  simp only [Chunk.seq, accesses_append, List.map_append, hc _ _ _, hd _ _ _]

theorem Finds.andAlso (hc : c.Finds l) (hd : d.Finds l') : (c.andAlso d).Finds (l ++ l') := by
  intro k p x
  simp only [Chunk.andAlso, accesses_append, List.map_append, hc _ _ _]
  rw [accesses_cons rfl, accesses_append, List.map_append, hd _ _ _]
  exact congrArg (l ++ ·) (List.append_nil l')

theorem Finds.orElse (hc : c.Finds l) (hd : d.Finds l') : (c.orElse d).Finds (l ++ l') := by
  intro k p x
  simp only [Chunk.orElse, accesses_append, List.map_append, hc _ _ _]
  rw [accesses_cons rfl, accesses_cons rfl, accesses_cons rfl, hd _ _ _]

theorem Finds.arm (hc : c.Finds l) (hd : d.Finds l') (he : e.Finds l'') :
    (c.arm d e).Finds (l ++ (l' ++ l'')) := by
  intro k p x
  simp only [Chunk.arm, accesses_append, List.map_append, hc _ _ _]
  rw [accesses_cons rfl, accesses_append, List.map_append, hd _ _ _, accesses_cons rfl, he _ _ _]

theorem Finds.loop (hc : c.Finds l) (hd : d.Finds l') : (c.loop d).Finds (l ++ l') := by
  intro k p x
  simp only [Chunk.loop, accesses_append, List.map_append, hc _ _ _]
  rw [accesses_cons rfl, accesses_append, List.map_append, hd _ _ _]
  exact congrArg (l ++ ·) (List.append_nil l')

theorem Finds.each {binds : Bool} (hc : c.Finds l) (hd : d.Finds l') (he : e.Finds l'') :
    (c.each binds d e).Finds (l ++ (l' ++ l'')) := by
  intro k p x
  simp only [Chunk.each, accesses_append, List.map_append, hc _ _ _]
  rw [accesses_cons rfl, accesses_append, List.map_append, hd _ _ _, accesses_append, List.map_append,
    he _ _ _]
  exact congrArg (fun l => _ ++ (l' ++ l)) (List.append_nil l'')

theorem finds_brk (hasIterator : Bool) : Finds (.brk hasIterator) [] := by
  intro k p x
  cases hasIterator <;> rfl

end Chunk

/-! ### Names that are looked up in vain -/

section
variable {α β : Type} {a a' : Assembly} {e : CompileError}

theorem run_bind_error {m : Assemble α} {f : α → Assemble β} (h : (m >>= f).run a = .error e) :
    m.run a = .error e ∨ ∃ r b, m.run a = .ok (r, b) ∧ (f r).run b = .error e := by
  rw [StateT.run_bind] at h
  cases hm : m.run a with
  | error e' =>
    rw [hm] at h
    exact .inl (congrArg Except.error (Except.error.inj h))
  | ok s =>
    obtain ⟨r, b⟩ := s
    rw [hm] at h
    exact .inr ⟨r, b, rfl, h⟩

/-- A step looks up no name in vain. -/
def Sure (m : Assemble α) : Prop :=
  ∀ a x, m.run a ≠ .error (.undefinedVar x)

namespace Sure
variable {m : Assemble α} {f : α → Assemble β}

theorem pure (r : α) : Sure (pure r) := fun _ _ h => by cases h

theorem modifyGet (f : Assembly → α × Assembly) : Sure (modifyGet f) := fun _ _ h => by cases h

theorem stop {e : CompileError} (h : ∀ x, e ≠ .undefinedVar x) : Sure (throw e : Assemble α) := by
  intro a x hrun
  cases hrun
  exact h x rfl

theorem bind (hm : Sure m) (hf : ∀ r, Sure (f r)) : Sure (m >>= f) := by
  intro a x h
  rcases run_bind_error h with h | ⟨r, b, -, h⟩
  · exact hm a x h
  · exact hf r b x h

theorem check {p : Prop} [Decidable p] {e : CompileError} {m : Assemble α} (h : ∀ x, e ≠ .undefinedVar x)
    (hm : Sure m) : Sure (do
      if p then throw e
      m) := by
  split
  · exact .bind (.stop h) fun _ => hm
  · exact hm

theorem emit (op : Opcode) (ns : List Nat) : Sure (emit op ns) :=
  .check (fun _ => nofun) (.modifyGet _)

theorem put (op : Opcode) (ns : List Nat) : Sure (put op ns) :=
  .bind (.emit op ns) fun _ => .pure _

theorem emitConstant (v : Cell) : Sure (emitConstant v) :=
  .bind (.modifyGet _) fun _ => .check (fun _ => nofun) (.bind (.modifyGet _) fun _ => .put _ _)

theorem patch (pos i : Nat) : Sure (Assemble.patch pos i) :=
  .bind (.bind (.modifyGet _) fun _ => .pure _) fun _ => .check (fun _ => nofun) (.modifyGet _)

theorem patchAll (places : List Nat) : Sure (patchAll places) := by
  induction places with
  | nil => exact .pure _
  | cons p places ih => exact .bind (.patch p 0) fun _ => ih

theorem define (name : String) : Sure (define name) :=
  .bind (.modifyGet _) fun _ => .check (fun _ => nofun) (.pure _)

theorem breakLoop (token : Token) : Sure (breakLoop token) := by
  refine .bind (.modifyGet _) fun b => ?_
  cases b.loops with
  | nil => exact .stop fun _ => nofun
  | cons l ls =>
    dsimp only
    split
    · exact .bind (.put _ _) fun _ => .bind (.emit _ _) fun _ => .modifyGet _
    · exact .bind (.emit _ _) fun _ => .modifyGet _

end Sure

/-- A step leaves the slots of variables as they are. -/
def Keeps (m : Assemble α) : Prop :=
  ∀ a r b, m.run a = .ok (r, b) → b.symbols = a.symbols

namespace Keeps
variable {m : Assemble α} {f : α → Assemble β}

theorem pure (r : α) : Keeps (Pure.pure r) := fun _ _ _ h => congrArg Assembly.symbols (run_pure_ok.1 h).2

theorem bind (hm : Keeps m) (hf : ∀ r, Keeps (f r)) : Keeps (m >>= f) := by
  intro a r b h
  obtain ⟨s, c, h1, h2⟩ := run_bind_ok.1 h
  exact (hf s c r b h2).trans (hm a s c h1)

theorem emit (op : Opcode) (ns : List Nat) : Keeps (Assemble.emit op ns) := by
  intro a r b h
  rw [(run_emit_ok h).2.2]

theorem put (op : Opcode) (ns : List Nat) : Keeps (Assemble.put op ns) :=
  .bind (.emit op ns) fun _ => .pure _

theorem patch (pos i : Nat) : Keeps (Assemble.patch pos i) := by
  intro a r b h
  rw [(run_patch_ok h).2]

end Keeps

theorem run_resolve_error {name x : String} (h : (resolve name).run a = .error (.undefinedVar x)) :
    name = x ∧ a.symbols.resolve? x = none := by
  unfold Assemble.resolve at h
  rcases run_bind_error h with h | ⟨r, b, hb, h⟩
  · cases h
  · cases hb
    split at h
    · cases h
    · next hnone =>
      cases h
      exact ⟨rfl, hnone⟩

theorem run_nested_error {m : Assemble α} (h : (nested m).run a = .error e) :
    m.run { a with symbols := a.symbols.nest } = .error e := by
  rcases run_bind_error h with h | ⟨_, b, hb, h⟩
  · cases h
  · cases hb
    rcases run_bind_error h with h | ⟨r, b, -, h⟩
    · exact h
    · cases h

end

/-! ### Expressions -/

/-- The names that a step looks up, and whether for a write. If it succeeds, its chunk uses their slots, and
if it fails for a name, then the name has no slot. -/
structure Looks (m : Assemble Unit) (chunk : Symbols → Chunk) (names : List (Bool × String)) : Prop where
  emits : Emits m chunk
  ok : ∀ {a a' : Assembly}, m.run a = .ok ((), a') →
    (chunk a.symbols).Finds (names.map fun n => (n.1, a.symbols.resolve? n.2))
  error : ∀ {a : Assembly} {x : String}, m.run a = .error (.undefinedVar x) →
    ∃ n ∈ names, n.2 = x ∧ a.symbols.resolve? x = none

namespace Looks
variable {m m' : Assemble Unit} {f g : Symbols → Chunk} {names names' : List (Bool × String)}

theorem seq (hf : ∀ sy, (f sy).Closed) (hm : Looks m f names) (hm' : Looks m' g names') :
    Looks (m >>= fun _ => m') (fun sy => (f sy).seq (g sy)) (names ++ names') where
  emits := .seq hf hm.emits hm'.emits
  ok h := by
    obtain ⟨_, b, h1, h2⟩ := run_bind_ok.1 h
    have hfinds := hm'.ok h2
    rw [(hm.emits _ b h1).2] at hfinds
    rw [List.map_append]
    exact (hm.ok h1).seq hfinds
  error h := by
    rcases run_bind_error h with h | ⟨_, b, h1, h⟩
    · obtain ⟨n, hn, heq⟩ := hm.error h
      exact ⟨n, List.mem_append_left _ hn, heq⟩
    · obtain ⟨n, hn, heq⟩ := hm'.error h
      rw [(hm.emits _ b h1).2] at heq
      exact ⟨n, List.mem_append_right _ hn, heq⟩

/-- A step that looks up no names. -/
theorem none {c : Chunk} (hm : Emits m fun _ => c) (hsure : Sure m) (hc : c.Finds []) :
    Looks m (fun _ => c) [] where
  emits := hm
  ok _ := hc
  error h := absurd h (hsure _ _)

theorem put {op : Opcode} {ns : List Nat} (h : ns.length = op.arity)
    (hnone : (Instr.item ⟨op, ns⟩).access? = Option.none) : Looks (put op ns) (fun _ => .instr ⟨op, ns⟩) [] :=
  none (.put op ns h) (.put op ns) (Chunk.finds_instr hnone)

theorem emitConstant (v : Cell) : Looks (emitConstant v) (fun _ => .const v) [] :=
  none (.emitConstant v) (.emitConstant v) (Chunk.finds_const v)

theorem pure : Looks (pure ()) (fun _ => .empty) [] :=
  none .pure (.pure ()) Chunk.finds_empty

theorem stop {e : CompileError} (h : ∀ x, e ≠ .undefinedVar x) : Looks (throw e) f names where
  emits := .throw
  ok hrun := by cases hrun
  error hrun := absurd hrun (Sure.stop h _ _)

theorem resolve {op : Opcode} {write : Bool} {name : String} (hop : op.arity = 1)
    (haccess : ∀ slot, (Code.Item.instr op [slot]).access? = some (write, slot)) :
    Looks (do Assemble.put op [← Assemble.resolve name])
      (fun sy => .instr ⟨op, [(sy.resolve? name).getD 0]⟩) [(write, name)] where
  emits := .resolve hop
  ok h := by
    obtain ⟨slot, b, hb, -⟩ := run_bind_ok.1 h
    obtain ⟨hslot, -⟩ := run_resolve_ok hb
    intro _ _ _
    simp only [Chunk.instr, accesses, List.filterMap_cons, Instr.item, haccess, hslot, List.map_cons,
      List.map_nil]
    rfl
  error h := by
    rcases run_bind_error h with h | ⟨slot, b, -, h⟩
    · obtain ⟨rfl, hnone⟩ := run_resolve_error h
      exact ⟨_, List.mem_singleton.2 rfl, rfl, hnone⟩
    · exact absurd h (Sure.put _ _ _ _)

/-- A last step that looks up no names. -/
theorem last (h : Looks m f (names ++ [])) : Looks m f names :=
  List.append_nil names ▸ h

theorem assoc {m'' : Assemble Unit} (h : Looks ((m >>= fun _ => m') >>= fun _ => m'') f names) :
    Looks (m >>= fun _ => m' >>= fun _ => m'') f names :=
  bind_assoc m _ _ ▸ h

end Looks

/-- The names of occurrences, which are read. -/
def readNames (os : List Occurrence) : List (Bool × String) :=
  os.map fun o => (false, o.name)

theorem readNames_append (os os' : List Occurrence) :
    readNames (os ++ os') = readNames os ++ readNames os' :=
  List.map_append

/-- The operands of `and` and `or` are compiled one after the other, with steps between and after them. -/
theorem looks_operands {β : Type} {m m' : Assemble Unit} {f g : Symbols → Chunk} {os os' : List Occurrence}
    (between : Assemble β) {after : β → Assemble Unit} (hm : Looks m f (readNames os))
    (hm' : Looks m' g (readNames os')) (hbetween : Sure between) (hkeeps : Keeps between)
    (hafter : ∀ r, Sure (after r)) {whole : Assemble Unit} {whole' : Symbols → Chunk}
    (hwhole : whole = m >>= fun _ => between >>= fun r => m' >>= fun _ => after r)
    (hemits : Emits whole whole')
    (hfinds : ∀ {sy l l'}, (f sy).Finds l → (g sy).Finds l' → (whole' sy).Finds (l ++ l')) :
    Looks whole whole' (readNames (os ++ os')) where
  emits := hemits
  ok {a a'} h := by
    rw [hwhole] at h
    obtain ⟨_, b, h1, h⟩ := run_bind_ok.1 h
    obtain ⟨r, b', h2, h⟩ := run_bind_ok.1 h
    obtain ⟨_, b'', h3, -⟩ := run_bind_ok.1 h
    -- the right operand is compiled with the table that the left one was compiled with
    have hsy : b'.symbols = a.symbols := (hkeeps _ _ _ h2).trans (hm.emits a b h1).2
    have hright := hm'.ok h3
    rw [hsy] at hright
    rw [readNames_append, List.map_append]
    exact hfinds (hm.ok h1) hright
  error {a x} h := by
    rw [hwhole] at h
    rw [readNames_append]
    rcases run_bind_error h with h | ⟨_, b, h1, h⟩
    · obtain ⟨n, hn, heq⟩ := hm.error h
      exact ⟨n, List.mem_append_left _ hn, heq⟩
    rcases run_bind_error h with h | ⟨r, b', h2, h⟩
    · exact absurd h (hbetween _ _)
    rcases run_bind_error h with h | ⟨_, b'', h3, h⟩
    · obtain ⟨n, hn, heq⟩ := hm'.error h
      have hsy : b'.symbols = a.symbols := (hkeeps _ _ _ h2).trans (hm.emits a b h1).2
      rw [hsy] at heq
      exact ⟨n, List.mem_append_right _ hn, heq⟩
    · exact absurd h (hafter r _ _)

mutual

theorem compileExpr_looks : (e : Expr) → Looks (compileExpr e) (exprChunk · e) (readNames e.occurrences)
  | .num .. | .str .. => by
    simp only [compileExpr, exprChunk, Expr.occurrences]
    exact .emitConstant _
  | .bool _ b => by
    simp only [compileExpr, exprChunk, Expr.occurrences]
    cases b with
    | true => exact .put rfl rfl
    | false => exact .put rfl rfl
  | .var .. => by
    simp only [compileExpr, exprChunk, Expr.occurrences]
    exact .resolve rfl fun _ => rfl
  | .array _ _ elems => by
    simp only [compileExpr, exprChunk, Expr.occurrences]
    exact .last (.seq (closed_listChunk · _) (compileList_looks elems) (.put rfl rfl))
  | .map _ _ pairs => by
    simp only [compileExpr, exprChunk, Expr.occurrences]
    exact .last (.seq (closed_pairsChunk · _) (compilePairs_looks pairs) (.put rfl rfl))
  | .unary _ op e => by
    simp only [compileExpr, exprChunk, Expr.occurrences]
    refine .last (.seq (closed_exprChunk · _) (compileExpr_looks e) ?_)
    cases op with
    | neg => exact .put rfl rfl
    | not => exact .put rfl rfl
  | .binary m op t l r => by
    have hl := compileExpr_looks l
    have hr := compileExpr_looks r
    rw [Expr.occurrences]
    by_cases h1 : op = .and
    · subst h1
      refine looks_operands _ hl hr (.emit _ _) (.emit _ _) (fun short => ?_)
        (by rw [compileExpr]) (compileExpr_emits _) fun hleft hright => ?_
      · exact .bind (.emit _ _) fun stop => .bind (.patch _ _) fun _ => .bind (.put _ _) fun _ => .patch _ _
      · rw [exprChunk]
        exact hleft.andAlso hright
    by_cases h2 : op = .or
    · subst h2
      let between : Assemble Nat := do
        let more ← emit .jumpNotTruthy [placeholder]
        put .true []
        let stop ← emit .jump [placeholder]
        patch more 0
        return stop
      refine looks_operands between hl hr ?_ ?_ (fun stop => .patch stop 0)
        (by simp only [between, compileExpr, bind_assoc, pure_bind]) (compileExpr_emits _) fun hleft hright => ?_
      · exact .bind (.emit _ _) fun _ => .bind (.put _ _) fun _ => .bind (.emit _ _) fun _ =>
          .bind (.patch _ _) fun _ => .pure _
      · exact .bind (.emit _ _) fun _ => .bind (.put _ _) fun _ => .bind (.emit _ _) fun _ =>
          .bind (.patch _ _) fun _ => .pure _
      · rw [exprChunk]
        exact hleft.orElse hright
    rw [compileExpr_binary h1 h2]
    simp only [exprChunk_binary h1 h2]
    have hop : Looks (match opcodeOf? op l.ty.kind with
        | some code => put code []
        | none => unsupported .binaryOperator m.token)
        (fun _ => .instr ⟨(opcodeOf? op l.ty.kind).getD .equal, []⟩) [] := by
      cases hc : opcodeOf? op l.ty.kind with
      | some code => exact .put (arity_opcodeOf? hc).symm (access?_eq_none (opcodeOf?_ne hc).1 (opcodeOf?_ne hc).2)
      | none => exact .stop fun _ => nofun
    rw [readNames_append]
    exact .last (.assoc (.seq (fun sy => (closed_exprChunk sy l).seq (closed_exprChunk sy r))
      (.seq (closed_exprChunk · _) hl hr) hop))
  | .index _ l k => by
    simp only [compileExpr, exprChunk, Expr.occurrences, readNames_append]
    exact .last (.assoc (.seq (fun sy => (closed_exprChunk sy l).seq (closed_exprChunk sy k))
      (.seq (closed_exprChunk · _) (compileExpr_looks l) (compileExpr_looks k)) (.put rfl rfl)))
  | .slice _ l x y => by
    simp only [compileExpr, exprChunk, Expr.occurrences, readNames_append]
    have hclosed := fun sy => (closed_exprChunk sy l).seq (closed_optionChunk sy x)
    exact .last (.assoc (.assoc (.seq (fun sy => (hclosed sy).seq (closed_optionChunk sy y))
      (.seq hclosed (.seq (closed_exprChunk · _) (compileExpr_looks l) (compileOptional_looks x))
        (compileOptional_looks y)) (.put rfl rfl))))
  | .dot _ l key => by
    simp only [compileExpr, exprChunk, Expr.occurrences]
    exact .last (.last (.assoc (.seq (fun sy => (closed_exprChunk sy l).seq (Chunk.closed_const _))
      (.seq (closed_exprChunk · _) (compileExpr_looks l) (.emitConstant (.str key))) (.put rfl rfl))))
  | .group _ e | .any _ e => by
    simp only [compileExpr, exprChunk, Expr.occurrences]
    exact compileExpr_looks e
  | .call .. | .assert .. => by
    simp only [compileExpr]
    exact .stop fun _ => nofun

theorem compileList_looks :
    (es : List Expr) → Looks (compileList es) (listChunk · es) (readNames (Expr.allOccurrences es))
  | [] => by
    simp only [compileList, listChunk, Expr.allOccurrences]
    exact .pure
  | e :: es => by
    simp only [compileList, listChunk, Expr.allOccurrences, readNames_append]
    exact .seq (closed_exprChunk · _) (compileExpr_looks e) (compileList_looks es)

theorem compilePairs_looks : (ps : List (String × Expr)) →
    Looks (compilePairs ps) (pairsChunk · ps) (readNames (Expr.pairOccurrences ps))
  | [] => by
    simp only [compilePairs, pairsChunk, Expr.pairOccurrences]
    exact .pure
  | (key, e) :: ps => by
    simp only [compilePairs, pairsChunk, Expr.pairOccurrences, readNames_append]
    exact .assoc (.seq (fun sy => (Chunk.closed_const _).seq (closed_exprChunk sy e))
      (.seq (fun _ => Chunk.closed_const _) (.emitConstant (.str key)) (compileExpr_looks e))
      (compilePairs_looks ps))

theorem compileOptional_looks : (e : Option Expr) →
    Looks (compileOptional e) (optionChunk · e) (readNames (Expr.optionOccurrences e))
  | some e => by
    simp only [compileOptional, optionChunk, Expr.optionOccurrences]
    exact compileExpr_looks e
  | none => by
    simp only [compileOptional, optionChunk, Expr.optionOccurrences]
    exact .put rfl rfl

end

/-! ### Uses of variables -/

/-- The name is used where no declaration is around. -/
def Missing (us : List Use) (x : String) : Prop :=
  ∃ u ∈ us, u.name = x ∧ u.site = none

theorem Missing.left {us us' : List Use} {x : String} (h : Missing us x) : Missing (us ++ us') x := by
  obtain ⟨u, hu, heq⟩ := h
  exact ⟨u, List.mem_append_left _ hu, heq⟩

theorem Missing.right {us us' : List Use} {x : String} (h : Missing us' x) : Missing (us ++ us') x := by
  obtain ⟨u, hu, heq⟩ := h
  exact ⟨u, List.mem_append_right _ hu, heq⟩

/-- Names that are looked up, as uses. -/
def usesOf (around : Sites) (names : List (Bool × String)) : List Use :=
  names.map fun n => around.use n.1 n.2

theorem usesOf_readNames (around : Sites) (os : List Occurrence) :
    usesOf around (readNames os) = around.reads os := by
  rw [usesOf, readNames, List.map_map]
  rfl

section
variable {m : Assemble Unit} {f : Symbols → Chunk} {names : List (Bool × String)} {os : List Occurrence}
  {a a' : Assembly} {slot : Nat → Nat} {around : Sites} {n : Nat} {x : String}

theorem Looks.finds (h : Looks m f names) (hagree : Agree slot a.symbols around)
    (hrun : m.run a = .ok ((), a')) : (f a.symbols).Finds ((usesOf around names).map (Use.access slot)) := by
  have hfinds := h.ok hrun
  have heq : names.map (fun n => (n.1, a.symbols.resolve? n.2)) =
      (usesOf around names).map (Use.access slot) := by
    rw [usesOf, List.map_map]
    exact List.map_congr_left fun n _ => congrArg (n.1, ·) (hagree n.2)
  exact heq ▸ hfinds

theorem Looks.missing (h : Looks m f names) (hagree : Agree slot a.symbols around)
    (hrun : m.run a = .error (.undefinedVar x)) : Missing (usesOf around names) x := by
  obtain ⟨n, hn, rfl, hnone⟩ := h.error hrun
  refine ⟨around.use n.1 n.2, List.mem_map.2 ⟨n, hn, rfl⟩, rfl, ?_⟩
  exact Option.map_eq_none_iff.1 ((hagree n.2).symm.trans hnone)

theorem compileExpr_finds {e : Expr} (hagree : Agree slot a.symbols around)
    (hrun : (compileExpr e).run a = .ok ((), a')) :
    (exprChunk a.symbols e).Finds ((around.reads e.occurrences).map (Use.access slot)) :=
  usesOf_readNames around _ ▸ (compileExpr_looks e).finds hagree hrun

theorem compileExpr_missing {e : Expr} (hagree : Agree slot a.symbols around)
    (hrun : (compileExpr e).run a = .error (.undefinedVar x)) : Missing (around.reads e.occurrences) x :=
  usesOf_readNames around _ ▸ (compileExpr_looks e).missing hagree hrun

end

/-! ### Statements -/

/-- A step that is run where the table of names agrees with the declarations around. If it succeeds, its
chunk uses the slots of the nearest declarations, and if it fails for a name, then no declaration of it is
around. -/
structure StmtLooks (m : Assemble Unit) (chunk : Symbols → Bool → Chunk)
    (slots : Symbols → List (String × Nat)) (uses : Sites → Nat → List Use) : Prop where
  ok : ∀ {a a' : Assembly} {slot : Nat → Nat} {around : Sites} {n : Nat}, Agree slot a.symbols around →
    Gives slot n (slots a.symbols) → m.run a = .ok ((), a') →
      (chunk a.symbols (topIterator a.loops)).Finds ((uses around n).map (Use.access slot))
  error : ∀ {a : Assembly} {slot : Nat → Nat} {around : Sites} {n : Nat} {x : String},
    Agree slot a.symbols around → Gives slot n (slots a.symbols) →
      m.run a = .error (.undefinedVar x) → Missing (uses around n) x

theorem Looks.stmtLooks {m : Assemble Unit} {f : Symbols → Chunk} {names : List (Bool × String)}
    {slots : Symbols → List (String × Nat)} (h : Looks m f names) :
    StmtLooks m (fun sy _ => f sy) slots fun around _ => usesOf around names where
  ok hagree _ hrun := h.finds hagree hrun
  error hagree _ hrun := h.missing hagree hrun

theorem finds_bindChunk {sy : Symbols} {slot : Nat → Nat} {n : Nat} {var : Option Var}
    (h : Gives slot n (bindSlots sy var)) :
    (bindChunk sy var).Finds ((bindUses n var).map (Use.access slot)) := by
  cases var with
  | none => exact Chunk.finds_empty
  | some v =>
    intro k p x
    show [(true, some (sy.define v.name).1)] = [(true, some (slot n))]
    rw [h.bind]

theorem compileDecl_looks (var : Var) (value : Expr) :
    StmtLooks (compileDecl var value) (fun sy _ => declChunk sy var value)
      (fun sy => bindSlots sy (some var))
      fun around n => around.reads value.occurrences ++ bindUses n (some var) where
  ok hagree hgives h := by
    obtain ⟨_, b, h1, -⟩ := run_bind_ok.1 h
    rw [List.map_append]
    exact (compileExpr_finds hagree h1).seq (finds_bindChunk hgives)
  error hagree _ h := by
    rcases run_bind_error h with h | ⟨_, b, -, h⟩
    · exact (compileExpr_missing hagree h).left
    · exact absurd h (Sure.bind (.define _) (fun _ => .put _ _) _ _)

/-- The names in what an assignment changes. -/
def targetNames : Expr → List (Bool × String)
  | .var _ name => [(true, name)]
  | target => readNames target.occurrences

theorem usesOf_targetNames (around : Sites) (target : Expr) :
    usesOf around (targetNames target) = target.targetUses around := by
  cases target with
  | var => rfl
  | _ => exact usesOf_readNames around _

theorem compileAssign_looks (target value : Expr) :
    Looks (compileAssign target value) (assignChunk · target value)
      (readNames value.occurrences ++ targetNames target) := by
  unfold compileAssign assignChunk
  refine Looks.seq (closed_exprChunk · value) (compileExpr_looks value) ?_
  cases target with
  | var _ name => exact .resolve rfl fun _ => rfl
  | index _ left key =>
    rw [targetNames, Expr.occurrences, readNames_append]
    · exact .last (.assoc (.seq (fun sy => (closed_exprChunk sy left).seq (closed_exprChunk sy key))
        (.seq (closed_exprChunk · _) (compileExpr_looks left) (compileExpr_looks key)) (.put rfl rfl)))
    · exact nofun
  | dot _ left key =>
    rw [targetNames, Expr.occurrences]
    · exact .last (.last (.assoc (.seq (fun sy => (closed_exprChunk sy left).seq (Chunk.closed_const _))
        (.seq (closed_exprChunk · _) (compileExpr_looks left) (.emitConstant (.str key))) (.put rfl rfl))))
    · exact nofun
  | _ => exact .stop fun _ => nofun

theorem compileRange_looks (range : Range) :
    Looks (compileRange range) (rangeChunk · range) (readNames range.occurrences) := by
  cases range with
  | step start stop stride =>
    have hclosed := fun sy => (closed_optionChunk sy start).seq (closed_exprChunk sy stop)
    rw [Range.occurrences, readNames_append, readNames_append]
    exact .last (.assoc (.assoc (.seq (fun sy => (hclosed sy).seq (closed_optionChunk sy stride))
      (.seq hclosed (.seq (closed_optionChunk · _) (compileOptional_looks start) (compileExpr_looks stop))
        (compileOptional_looks stride)) (.put rfl rfl))))
  | «over» e => exact compileExpr_looks e

/-- The code of a block uses the slots of the declarations around and in it. -/
abbrev BlockLooks (body : Block) : Prop :=
  StmtLooks (compileBlock body) (blockChunk · · body) (blockSlots · body) fun around n =>
    Block.uses around n body

section
variable {a a' : Assembly} {slot : Nat → Nat} {around : Sites} {n : Nat} {x : String} {body : Block}

theorem compileBranch_finds {m : Token} {cm : Option String} {test : Expr} {r : Nat}
    (hbody : BlockLooks body) (hagree : Agree slot a.symbols around)
    (hgives : Gives slot n (blockSlots a.symbols body))
    (h : (compileBranch (.mk m cm test body)).run a = .ok (r, a')) :
    (exprChunk a.symbols test).Finds ((around.reads test.occurrences).map (Use.access slot)) ∧
      (blockChunk a.symbols (topIterator a.loops) body).Finds
        ((Block.uses around n body).map (Use.access slot)) := by
  unfold compileBranch at h
  obtain ⟨_, a1, h1, h⟩ := run_bind_ok.1 h
  obtain ⟨g1, e1⟩ := compileExpr_emits test _ _ h1
  obtain ⟨_, a2, h2, h⟩ := run_bind_ok.1 h
  obtain ⟨g2, e2, -⟩ := Adds.of_emit rfl h2
  obtain ⟨_, a3, h3, -⟩ := run_bind_ok.1 h
  have hsy : a2.symbols = a.symbols := e2.trans e1
  have hloops : topIterator a2.loops = topIterator a.loops :=
    g2.topIterator_eq.trans (Adds.topIterator_eq g1)
  have hfinds := hbody.ok (hsy ▸ hagree) (hsy ▸ hgives) h3
  rw [hsy, hloops] at hfinds
  exact ⟨compileExpr_finds hagree h1, hfinds⟩

theorem compileBranch_missing {m : Token} {cm : Option String} {test : Expr} (hbody : BlockLooks body)
    (hagree : Agree slot a.symbols around) (hgives : Gives slot n (blockSlots a.symbols body))
    (h : (compileBranch (.mk m cm test body)).run a = .error (.undefinedVar x)) :
    Missing (Branch.uses around n (.mk m cm test body)) x := by
  unfold compileBranch at h
  rw [Branch.uses]
  rcases run_bind_error h with h | ⟨_, a1, h1, h⟩
  · exact (compileExpr_missing hagree h).left
  rcases run_bind_error h with h | ⟨_, a2, h2, h⟩
  · exact absurd h (Sure.emit _ _ _ _)
  have hsy : a2.symbols = a.symbols :=
    (Adds.of_emit rfl h2).2.1.trans (compileExpr_emits test _ _ h1).2
  rcases run_bind_error h with h | ⟨_, a3, -, h⟩
  · exact (hbody.error (hsy ▸ hagree) (hsy ▸ hgives) h).right
  · exact absurd h (Sure.bind (.emit _ _) (fun _ => .bind (.patch _ _) fun _ => .pure _) _ _)

/-- The end of a chain of branches uses the slots of the declarations around and in it. -/
structure FinishLooks (more : List Branch) (otherwise : Option Block) : Prop where
  ok : ∀ {stops : Array Nat} {a a' : Assembly} {slot : Nat → Nat} {around : Sites} {n : Nat},
    Agree slot a.symbols around →
      Gives slot n (branchesSlots a.symbols more ++ lastSlots (branchesSymbols a.symbols more) otherwise) →
        (finishBranches stops more otherwise).run a = .ok ((), a') →
          (branchesChunk a.symbols (topIterator a.loops) more
            (lastChunk (branchesSymbols a.symbols more) (topIterator a.loops) otherwise)).Finds
              ((Branch.allUses around n more ++
                Block.lastUses around (n + (Branch.allBinders more).length) otherwise).map (Use.access slot))
  error : ∀ {stops : Array Nat} {a : Assembly} {slot : Nat → Nat} {around : Sites} {n : Nat} {x : String},
    Agree slot a.symbols around →
      Gives slot n (branchesSlots a.symbols more ++ lastSlots (branchesSymbols a.symbols more) otherwise) →
        (finishBranches stops more otherwise).run a = .error (.undefinedVar x) →
          Missing (Branch.allUses around n more ++
            Block.lastUses around (n + (Branch.allBinders more).length) otherwise) x

theorem finishLooks_nil {otherwise : Option Block}
    (hlast : ∀ block, otherwise = some block → BlockLooks block) : FinishLooks [] otherwise where
  ok {stops a a' slot around n} hagree hgives h := by
    rw [branchesChunk, branchesSymbols, Branch.allUses, Branch.allBinders]
    rw [branchesSlots, branchesSymbols] at hgives
    cases otherwise with
    | none =>
      rw [lastChunk, Block.lastUses]
      exact Chunk.finds_empty
    | some block =>
      obtain ⟨_, b, hb, -⟩ := run_bind_ok.1
        (show (compileBlock block >>= fun _ => patchAll stops.toList).run a = _ from h)
      rw [lastChunk, Block.lastUses]
      rw [lastSlots] at hgives
      exact (hlast block rfl).ok hagree hgives hb
  error {stops a slot around n x} hagree hgives h := by
    rw [Branch.allUses, Branch.allBinders]
    rw [branchesSlots, branchesSymbols] at hgives
    cases otherwise with
    | none => exact absurd h (Sure.patchAll _ _ _)
    | some block =>
      rw [Block.lastUses]
      rw [lastSlots] at hgives
      rcases run_bind_error
        (show (compileBlock block >>= fun _ => patchAll stops.toList).run a = _ from h) with h | ⟨_, b, -, h⟩
      · exact (hlast block rfl).error hagree hgives h
      · exact absurd h (Sure.patchAll _ _ _)

theorem finishBranches_cons (stops : Array Nat) (b : Branch) (more : List Branch)
    (otherwise : Option Block) : finishBranches stops (b :: more) otherwise =
      compileBranch b >>= fun stop => finishBranches (stops.push stop) more otherwise := by
  simp only [finishBranches, compileBranches, bind_assoc]

theorem finishLooks_cons (m : Token) (cm : Option String) (test : Expr) {more : List Branch}
    {otherwise : Option Block} (hbody : BlockLooks body)
    (hemits : StmtEmits (compileBlock body) (blockChunk · · body) (blockSymbols · body))
    (hmore : FinishLooks more otherwise) : FinishLooks (.mk m cm test body :: more) otherwise where
  ok {stops a a' slot around n} hagree hgives h := by
    rw [branchesSlots, branchesSymbols, List.append_assoc] at hgives
    rw [finishBranches_cons] at h
    obtain ⟨stop, b, hbranch, h⟩ := run_bind_ok.1 h
    obtain ⟨g, -, e⟩ := compileBranch_adds hemits hbranch
    obtain ⟨htest, hblock⟩ := compileBranch_finds hbody hagree hgives.left hbranch
    have hrest := hgives.right
    rw [length_blockSlots] at hrest
    have hfinds := hmore.ok (e ▸ hagree.of_sameNames (blockSymbols_sameNames _ body)) (e ▸ hrest) h
    rw [g.topIterator_eq, e] at hfinds
    rw [branchesChunk, branchesSymbols, Branch.allUses, Branch.uses, Branch.allBinders, List.length_append,
      ← Nat.add_assoc, List.append_assoc, List.append_assoc, List.map_append, List.map_append]
    exact htest.arm hblock hfinds
  error {stops a slot around n x} hagree hgives h := by
    rw [branchesSlots, branchesSymbols, List.append_assoc] at hgives
    rw [finishBranches_cons] at h
    rw [Branch.allUses, Branch.allBinders, List.length_append, ← Nat.add_assoc, List.append_assoc]
    rcases run_bind_error h with h | ⟨stop, b, hbranch, h⟩
    · exact (compileBranch_missing hbody hagree hgives.left h).left
    · obtain ⟨-, -, e⟩ := compileBranch_adds hemits hbranch
      have hrest := hgives.right
      rw [length_blockSlots] at hrest
      exact (hmore.error (e ▸ hagree.of_sameNames (blockSymbols_sameNames _ body)) (e ▸ hrest) h).right

theorem compileBlock_looks_of_stmts {m : Token} {cm : Option String} {stmts : List Stmt}
    (h : StmtLooks (compileStmts stmts) (stmtsChunk · · stmts) (stmtsSlots · stmts) fun around n =>
      Stmt.allUses around n stmts) : BlockLooks (.mk m cm stmts) where
  ok hagree hgives hrun := by
    rw [compileBlock] at hrun
    rw [blockSlots] at hgives
    obtain ⟨b, hb, -⟩ := run_nested_ok hrun
    rw [blockChunk, Block.uses]
    exact h.ok hagree.nest hgives hb
  error hagree hgives hrun := by
    rw [compileBlock] at hrun
    rw [blockSlots] at hgives
    rw [Block.uses]
    exact h.error hagree.nest hgives (run_nested_error hrun)

/-- The body of a loop is compiled with the loop as the innermost one. -/
theorem loopBody_finds {start : Nat} {it : Bool} (hbody : BlockLooks body)
    (hagree : Agree slot a.symbols around) (hgives : Gives slot n (blockSlots a.symbols body))
    (h : (loopBody start it (compileBlock body)).run a = .ok ((), a')) :
    (blockChunk a.symbols it body).Finds ((Block.uses around n body).map (Use.access slot)) := by
  obtain ⟨_, a1, h1, h⟩ := run_bind_ok.1 h
  cases h1
  obtain ⟨_, a2, h2, -⟩ := run_bind_ok.1 h
  let inner : Assembly := { a with loops := { hasIterator := it } :: a.loops }
  have hagree : Agree slot inner.symbols around := hagree
  exact hbody.ok hagree hgives h2

theorem loopBody_missing {start : Nat} {it : Bool} (hbody : BlockLooks body)
    (hagree : Agree slot a.symbols around) (hgives : Gives slot n (blockSlots a.symbols body))
    (h : (loopBody start it (compileBlock body)).run a = .error (.undefinedVar x)) :
    Missing (Block.uses around n body) x := by
  rcases run_bind_error h with h | ⟨_, a1, h1, h⟩
  · cases h
  cases h1
  rcases run_bind_error h with h | ⟨_, a2, -, h⟩
  · let inner : Assembly := { a with loops := { hasIterator := it } :: a.loops }
    have hagree : Agree slot inner.symbols around := hagree
    exact hbody.error hagree hgives h
  · exact absurd h (Sure.bind (.modifyGet _) (fun _ => .bind (.put _ _) fun _ => .patchAll _) _ _)

theorem compileLoop_looks {t m : Token} {cm : Option String} {test : Expr} (hbody : BlockLooks body) :
    StmtLooks (compileStmt (.loop t (.mk m cm test body))) (stmtChunk · · (.loop t (.mk m cm test body)))
      (stmtSlots · (.loop t (.mk m cm test body))) fun around n =>
        Stmt.uses around n (.loop t (.mk m cm test body)) where
  ok hagree hgives h := by
    rw [compileStmt] at h
    rw [stmtSlots] at hgives
    simp only [stmtChunk, Stmt.uses, Branch.uses, List.map_append]
    obtain ⟨_, _, h0, h⟩ := run_bind_ok.1 h
    cases h0
    obtain ⟨_, a1, h1, h⟩ := run_bind_ok.1 h
    obtain ⟨_, a2, h2, h⟩ := run_bind_ok.1 h
    obtain ⟨_, a3, h3, -⟩ := run_bind_ok.1 h
    have hsy := (Adds.of_emit rfl h2).2.1.trans (compileExpr_emits test _ _ h1).2
    have hfinds := loopBody_finds hbody (hsy ▸ hagree) (hsy ▸ hgives) h3
    rw [hsy] at hfinds
    exact (compileExpr_finds hagree h1).loop hfinds
  error hagree hgives h := by
    rw [compileStmt] at h
    rw [stmtSlots] at hgives
    rw [Stmt.uses, Branch.uses]
    rcases run_bind_error h with h | ⟨_, _, h0, h⟩
    · cases h
    cases h0
    rcases run_bind_error h with h | ⟨_, a1, h1, h⟩
    · exact (compileExpr_missing hagree h).left
    rcases run_bind_error h with h | ⟨_, a2, h2, h⟩
    · exact absurd h (Sure.emit _ _ _ _)
    have hsy := (Adds.of_emit rfl h2).2.1.trans (compileExpr_emits test _ _ h1).2
    rcases run_bind_error h with h | ⟨_, a3, -, h⟩
    · exact (loopBody_missing hbody (hsy ▸ hagree) (hsy ▸ hgives) h).right
    · exact absurd h (Sure.patch _ _ _ _)

theorem compileHead_sure (var : Option Var) : Sure (compileHead var) := by
  refine .bind (.emit _ _) fun head => ?_
  cases var with
  | none => exact .pure _
  | some v => exact .bind (.define _) fun _ => .bind (.put _ _) fun _ => .pure _

theorem compileEach_looks {t : Token} {cm : Option String} {var : Option Var} {range : Range}
    (hbody : BlockLooks body) : StmtLooks (compileStmt (.each t cm var range body))
      (stmtChunk · · (.each t cm var range body)) (stmtSlots · (.each t cm var range body)) fun around n =>
        Stmt.uses around n (.each t cm var range body) where
  ok {a a' slot around n} hagree hgives h := by
    rw [compileStmt] at h
    rw [stmtSlots] at hgives
    have hloop := hagree.loop hgives.left
    have hblock := hgives.right
    rw [length_bindSlots] at hblock
    obtain ⟨_, a1, h1, h⟩ := run_bind_ok.1 h
    have hrange := (compileRange_looks range).finds hagree h1
    rw [usesOf_readNames] at hrange
    have hsy : a1.symbols.nest = a.symbols.nest := congrArg _ ((compileRange_looks range).emits _ _ h1).2
    obtain ⟨_, a2, h2, -⟩ := run_bind_ok.1 h
    -- the variable is in a block of its own, and the table of the body is made from that
    obtain ⟨a3, h3, -⟩ := run_nested_ok h2
    obtain ⟨_, a4, h4, h5⟩ := run_bind_ok.1 h3
    obtain ⟨_, a5, h5, -⟩ := run_bind_ok.1 h5
    obtain ⟨-, -, -, -, e⟩ := compileHead_adds a.symbols hsy h4
    have hfinds := loopBody_finds hbody (e ▸ hloop) (e ▸ hblock) h5
    rw [e] at hfinds
    simp only [stmtChunk, Stmt.uses, List.map_append]
    exact hrange.each (finds_bindChunk hgives.left) hfinds
  error {a slot around n x} hagree hgives h := by
    rw [compileStmt] at h
    rw [stmtSlots] at hgives
    have hloop := hagree.loop hgives.left
    have hblock := hgives.right
    rw [length_bindSlots] at hblock
    rw [Stmt.uses]
    rcases run_bind_error h with h | ⟨_, a1, h1, h⟩
    · have hmissing := (compileRange_looks range).missing hagree h
      rw [usesOf_readNames] at hmissing
      exact hmissing.left
    have hsy : a1.symbols.nest = a.symbols.nest := congrArg _ ((compileRange_looks range).emits _ _ h1).2
    rcases run_bind_error h with h | ⟨_, a2, -, h⟩
    · rcases run_bind_error (run_nested_error h) with h | ⟨_, a3, h3, h⟩
      · exact absurd h (compileHead_sure var _ _)
      obtain ⟨-, -, -, -, e⟩ := compileHead_adds a.symbols hsy h3
      rcases run_bind_error h with h | ⟨_, a4, -, h⟩
      · exact (loopBody_missing hbody (e ▸ hloop) (e ▸ hblock) h).right.right
      · exact absurd h (Sure.pure _ _ _)
    · exact absurd h (Sure.patch _ _ _ _)

end

/-- A statement with branches is the chain of them. -/
theorem FinishLooks.cond {t m : Token} {cm cm' : Option String} {test : Expr} {body : Block}
    {more : List Branch} {otherwise : Option Block}
    (h : FinishLooks (.mk m cm test body :: more) otherwise) :
    StmtLooks (compileStmt (.cond t cm' (.mk m cm test body) more otherwise))
      (stmtChunk · · (.cond t cm' (.mk m cm test body) more otherwise))
      (stmtSlots · (.cond t cm' (.mk m cm test body) more otherwise)) fun around n =>
        Stmt.uses around n (.cond t cm' (.mk m cm test body) more otherwise) := by
  have hrun : compileStmt (.cond t cm' (.mk m cm test body) more otherwise) =
      finishBranches #[] (.mk m cm test body :: more) otherwise := by
    rw [compileStmt, finishBranches_cons]
    rfl
  have hslots (sy : Symbols) : stmtSlots sy (.cond t cm' (.mk m cm test body) more otherwise) =
      branchesSlots sy (.mk m cm test body :: more) ++
        lastSlots (branchesSymbols sy (.mk m cm test body :: more)) otherwise := by
    rw [stmtSlots, branchesSlots, branchesSymbols, List.append_assoc]
  have huses (around : Sites) (n : Nat) :
      Stmt.uses around n (.cond t cm' (.mk m cm test body) more otherwise) =
        Branch.allUses around n (.mk m cm test body :: more) ++
          Block.lastUses around (n + (Branch.allBinders (.mk m cm test body :: more)).length) otherwise := by
    simp only [Stmt.uses, Branch.allUses, Branch.allBinders, List.length_append, List.append_assoc,
      Nat.add_assoc]
  have hchunk (sy : Symbols) (it : Bool) :
      stmtChunk sy it (.cond t cm' (.mk m cm test body) more otherwise) =
        branchesChunk sy it (.mk m cm test body :: more)
          (lastChunk (branchesSymbols sy (.mk m cm test body :: more)) it otherwise) := by
    rw [stmtChunk, branchesChunk, branchesSymbols]
  simp only [hrun, hslots, huses, hchunk]
  exact ⟨h.ok, h.error⟩

mutual

theorem compileStmt_looks : (s : Stmt) →
    StmtLooks (compileStmt s) (stmtChunk · · s) (stmtSlots · s) fun around n => Stmt.uses around n s
  | .empty .. => by
    simp only [compileStmt, stmtChunk, Stmt.uses]
    exact Looks.pure.stmtLooks
  | .typedDecl _ _ var value | .inferredDecl _ _ var value => by
    simp only [compileStmt, stmtChunk, stmtSlots, Stmt.uses]
    exact compileDecl_looks var value
  | .assign _ _ target value => by
    simp only [compileStmt, stmtChunk, Stmt.uses, ← usesOf_readNames, ← usesOf_targetNames]
    simp only [usesOf, ← List.map_append]
    exact (compileAssign_looks target value).stmtLooks
  | .cond _ _ (.mk m cm test body) more otherwise => by
    exact (finishLooks_cons m cm test (compileBlock_looks body) (compileBlock_emits body)
      (compileFinish_looks more (compileLast_looks otherwise))).cond
  | .loop _ (.mk _ _ _ body) => compileLoop_looks (compileBlock_looks body)
  | .each _ _ _ _ body => compileEach_looks (compileBlock_looks body)
  | .brk token _ => by
    simp only [compileStmt, stmtChunk, Stmt.uses]
    refine ⟨fun _ _ _ => Chunk.finds_brk _, fun _ _ h => ?_⟩
    exact absurd h (Sure.breakLoop token _ _)
  | .call .. | .ret .. | .func .. | .on .. => by
    simp only [compileStmt]
    refine ⟨fun _ _ h => ?_, fun _ _ h => ?_⟩
    · cases h
    · cases h

theorem compileFinish_looks {otherwise : Option Block} :
    (more : List Branch) → FinishLooks [] otherwise → FinishLooks more otherwise
  | [], h => h
  | .mk m cm test body :: more, h =>
    finishLooks_cons m cm test (compileBlock_looks body) (compileBlock_emits body)
      (compileFinish_looks more h)

theorem compileLast_looks : (otherwise : Option Block) → FinishLooks [] otherwise
  | none => finishLooks_nil nofun
  | some block => finishLooks_nil (by
    rintro _ ⟨⟩
    exact compileBlock_looks block)

theorem compileBlock_looks : (b : Block) → BlockLooks b
  | .mk _ _ stmts => compileBlock_looks_of_stmts (compileStmts_looks stmts)

theorem compileStmts_looks : (ss : List Stmt) →
    StmtLooks (compileStmts ss) (stmtsChunk · · ss) (stmtsSlots · ss) fun around n =>
      Stmt.allUses around n ss
  | [] => by
    simp only [compileStmts, stmtsChunk, Stmt.allUses]
    exact Looks.pure.stmtLooks
  | s :: ss => by
    simp only [compileStmts, stmtsChunk, stmtsSlots, Stmt.allUses]
    refine ⟨fun {a a' slot around n} hagree hgives h => ?_, fun {a slot around n x} hagree hgives h => ?_⟩
    · obtain ⟨_, b, h1, h2⟩ := run_bind_ok.1 h
      have g := (compileStmt_emits s a b h1).1
      have e : b.symbols = stmtSymbols a.symbols s := (compileStmt_emits s a b h1).2
      have hfirst := (compileStmt_looks s).ok hagree hgives.left h1
      -- later statements are numbered after the declarations of the first one, and see its own
      have hrest := hgives.right
      rw [length_stmtSlots] at hrest
      have hfinds := (compileStmts_looks ss).ok (e ▸ hagree.stmt hgives.left) (e ▸ hrest) h2
      rw [Adds.topIterator_eq g, e] at hfinds
      rw [List.map_append]
      exact hfirst.seq hfinds
    · rcases run_bind_error h with h | ⟨_, b, h1, h⟩
      · exact ((compileStmt_looks s).error hagree hgives.left h).left
      · have e : b.symbols = stmtSymbols a.symbols s := (compileStmt_emits s a b h1).2
        have hrest := hgives.right
        rw [length_stmtSlots] at hrest
        exact ((compileStmts_looks ss).error (e ▸ hagree.stmt hgives.left) (e ▸ hrest) h).right

end

end TinyScript.Bytecode
