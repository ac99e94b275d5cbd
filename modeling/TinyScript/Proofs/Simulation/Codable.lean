import TinyScript.Proofs.Bytecode.Emission

/-!
# Phrases that have code

What it takes for a phrase to be compiled (`Expr.Codable`, `Stmt.Codable`): its names have slots, it calls,
asserts and returns nothing, and its operators have code for their operands. A compilation that succeeds has
found all of that (`compileExpr_demands`, `compileStmts_demands`).
-/

namespace TinyScript
open Bytecode

mutual

/-- An expression that has code with a table of names. -/
def Expr.Codable (sy : Symbols) : Expr → Prop
  | .num .. | .str .. | .bool .. => True
  | .var _ name => ∃ slot, sy.resolve? name = some slot
  | .array _ _ elems => Expr.AllCodable sy elems
  | .map _ _ pairs => Expr.PairsCodable sy pairs
  | .unary _ _ e | .dot _ e _ | .group _ e | .any _ e => e.Codable sy
  | .binary _ op _ left right => left.Codable sy ∧ right.Codable sy ∧
      (op ≠ .and → op ≠ .or → ∃ code, opcodeOf? op left.ty.kind = some code)
  | .index _ left key => left.Codable sy ∧ key.Codable sy
  | .slice _ left start stop => left.Codable sy ∧ Expr.BoundCodable sy start ∧ Expr.BoundCodable sy stop
  | .call .. | .assert .. => False

def Expr.AllCodable (sy : Symbols) : List Expr → Prop
  | [] => True
  | e :: es => e.Codable sy ∧ Expr.AllCodable sy es

def Expr.PairsCodable (sy : Symbols) : List (String × Expr) → Prop
  | [] => True
  | (_, e) :: es => e.Codable sy ∧ Expr.PairsCodable sy es

def Expr.BoundCodable (sy : Symbols) : Option Expr → Prop
  | none => True
  | some e => e.Codable sy

end

def Range.Codable (sy : Symbols) : Range → Prop
  | .step start stop stride => Expr.BoundCodable sy start ∧ stop.Codable sy ∧ Expr.BoundCodable sy stride
  | .over e => e.Codable sy

mutual

/-- A statement that has code with a table of names. -/
def Stmt.Codable (sy : Symbols) : Stmt → Prop
  | .empty .. | .brk .. => True
  | .typedDecl _ _ _ value | .inferredDecl _ _ _ value => value.Codable sy
  | .assign _ _ target value => value.Codable sy ∧ target.Codable sy
  | .cond _ _ (.mk _ _ test body) more otherwise => test.Codable sy ∧ Block.Codable sy body ∧
      Branch.AllCodable (blockSymbols sy body) more ∧
      Block.LastCodable (branchesSymbols (blockSymbols sy body) more) otherwise
  | .loop _ (.mk _ _ test body) => test.Codable sy ∧ Block.Codable sy body
  | .each _ _ var range body => range.Codable sy ∧ Block.Codable (loopSymbols sy var) body
  | .call .. | .ret .. | .func .. | .on .. => False

def Branch.AllCodable (sy : Symbols) : List Branch → Prop
  | [] => True
  | .mk _ _ test body :: more => test.Codable sy ∧ Block.Codable sy body ∧
      Branch.AllCodable (blockSymbols sy body) more

def Block.LastCodable (sy : Symbols) : Option Block → Prop
  | none => True
  | some block => Block.Codable sy block

def Block.Codable (sy : Symbols) : Block → Prop
  | .mk _ _ stmts => Stmt.AllCodable sy.nest stmts

def Stmt.AllCodable (sy : Symbols) : List Stmt → Prop
  | [] => True
  | s :: ss => Stmt.Codable sy s ∧ Stmt.AllCodable (stmtSymbols sy s) ss

end

end TinyScript

namespace TinyScript.Bytecode
open Assemble

/-- A step of a compilation that succeeds has found `P` of the table of names, and changes the table by
`S`. -/
def Demands {α : Type} (m : Assemble α) (P : Symbols → Prop) (S : Symbols → Symbols) : Prop :=
  ∀ (a : Assembly) (r : α) (a' : Assembly), m.run a = .ok (r, a') → P a.symbols ∧ a'.symbols = S a.symbols

namespace Demands
variable {α β : Type} {m : Assemble α} {f : α → Assemble β} {P P' Q : Symbols → Prop}
  {S S' T : Symbols → Symbols}

theorem mono (h : Demands m P S) (hP : ∀ sy, P sy → P' sy) (hS : ∀ sy, S sy = S' sy) : Demands m P' S' :=
  fun a r a' hr => ⟨hP _ (h a r a' hr).1, (h a r a' hr).2.trans (hS _)⟩

theorem weaken (h : Demands m P S) (hP : ∀ sy, P sy → P' sy) : Demands m P' S :=
  h.mono hP fun _ => rfl

theorem bind (hm : Demands m P S) (hf : ∀ r, Demands (f r) Q T) :
    Demands (m >>= f) (fun sy => P sy ∧ Q (S sy)) fun sy => T (S sy) := by
  intro a r a' hr
  obtain ⟨x, b, hb, h⟩ := run_bind_ok.1 hr
  obtain ⟨hP, hs⟩ := hm a x b hb
  obtain ⟨hQ, hs'⟩ := hf x b r a' h
  rw [hs] at hQ hs'
  exact ⟨⟨hP, hQ⟩, hs'⟩

theorem pure (x : α) : Demands (pure x) (fun _ => True) id :=
  fun _ _ _ hr => ⟨trivial, congrArg Assembly.symbols (run_pure_ok.1 hr).2⟩

theorem throw {e : CompileError} : Demands (throw e : Assemble α) P S :=
  fun _ _ _ hr => nomatch hr

theorem emit (op : Opcode) (ns : List Nat) : Demands (emit op ns) (fun _ => True) id :=
  fun _ _ _ hr => ⟨trivial, (congrArg Assembly.symbols (run_emit_ok hr).2.2).trans rfl⟩

theorem put (op : Opcode) (ns : List Nat) : Demands (put op ns) (fun _ => True) id :=
  fun _ _ _ hr => ⟨trivial, (congrArg Assembly.symbols (run_put_ok hr).2).trans rfl⟩

theorem emitConstant (c : Cell) : Demands (emitConstant c) (fun _ => True) id :=
  fun _ _ _ hr => ⟨trivial, (congrArg Assembly.symbols (run_emitConstant_ok hr).2).trans rfl⟩

theorem patch (pos i : Nat) : Demands (patch pos i) (fun _ => True) id :=
  fun _ _ _ hr => ⟨trivial, (congrArg Assembly.symbols (run_patch_ok hr).2).trans rfl⟩

theorem patchAll (places : List Nat) : Demands (patchAll places) (fun _ => True) id :=
  fun _ _ _ hr => ⟨trivial, (congrArg Assembly.symbols (run_patchAll_ok hr).1).trans rfl⟩

theorem resolve (name : String) :
    Demands (resolve name) (fun sy => ∃ slot, sy.resolve? name = some slot) id :=
  fun _ r _ hr => ⟨⟨r, (run_resolve_ok hr).1⟩, congrArg Assembly.symbols (run_resolve_ok hr).2⟩

theorem define (name : String) : Demands (define name) (fun _ => True) fun sy => (sy.define name).2 :=
  fun _ _ _ hr => ⟨trivial, (congrArg Assembly.symbols (run_define_ok hr).2.2).trans rfl⟩

theorem nested (h : Demands m P S) : Demands (nested m) (fun sy => P sy.nest) fun sy => (S sy.nest).unnest := by
  intro a r a' hr
  obtain ⟨b, hb, rfl⟩ := run_nested_ok hr
  obtain ⟨hP, hs⟩ := h _ r b hb
  exact ⟨hP, congrArg Symbols.unnest hs⟩

theorem modifyGet {g : Assembly → α × Assembly} (hg : ∀ a, (g a).2.symbols = a.symbols) :
    Demands (modifyGet g) (fun _ => True) id := by
  intro a r a' hr
  have hg' : g a = (r, a') := Except.ok.inj hr
  refine ⟨trivial, ?_⟩
  rw [← hg a, hg']
  rfl

theorem modify {g : Assembly → Assembly} (hg : ∀ a, (g a).symbols = a.symbols) :
    Demands (modify g) (fun _ => True) id :=
  modifyGet (g := fun a => ((), g a)) hg

theorem loopBody {body : Assemble Unit} (start : Nat) (it : Bool) (h : Demands body P S) :
    Demands (loopBody start it body) P S := by
  unfold Assemble.loopBody
  refine (Demands.bind (modify fun a => ?_) fun _ => h.bind fun _ => .bind (modifyGet fun a => ?_)
    fun _ => (put .jump [start]).bind fun _ => patchAll _).weaken fun _ hP => hP.2.1
  · rfl
  · cases a.loops <;> rfl

theorem breakLoop (token : Token) : Demands (breakLoop token) (fun _ => True) id := by
  unfold Assemble.breakLoop
  have hget : Demands (MonadState.get : Assemble Assembly) (fun _ => True) id :=
    fun _ _ _ hr => by cases hr; exact ⟨trivial, rfl⟩
  refine (hget.bind (Q := fun _ => True) (T := id) fun a => ?_).weaken fun _ _ => trivial
  cases a.loops with
  | nil => exact throw
  | cons l ls =>
    dsimp only
    split
    · refine ((put .drop [1]).bind fun _ => (emit .jump [placeholder]).bind fun _ =>
        modify fun a => ?_).weaken fun _ _ => trivial
      cases a.loops <;> rfl
    · refine ((emit .jump [placeholder]).bind fun _ => modify fun a => ?_).weaken fun _ _ => trivial
      cases a.loops <;> rfl

end Demands

mutual

theorem compileExpr_demands : (e : Expr) → Demands (compileExpr e) (e.Codable ·) id
  | .num .. | .str .. => by
    simp only [compileExpr, Expr.Codable]
    exact .emitConstant _
  | .bool .. => by
    simp only [compileExpr, Expr.Codable]
    exact .put _ _
  | .var _ name => by
    simp only [compileExpr, Expr.Codable]
    exact ((Demands.resolve name).bind fun slot => .put _ _).weaken fun _ h => h.1
  | .array _ _ elems => by
    simp only [compileExpr, Expr.Codable]
    exact ((compileList_demands elems).bind fun _ => .put _ _).weaken fun _ h => h.1
  | .map _ _ pairs => by
    simp only [compileExpr, Expr.Codable]
    exact ((compilePairs_demands pairs).bind fun _ => .put _ _).weaken fun _ h => h.1
  | .unary _ op e => by
    simp only [compileExpr, Expr.Codable]
    exact ((compileExpr_demands e).bind fun _ => .put _ _).weaken fun _ h => h.1
  | .binary m op t left right => by
    have hleft := compileExpr_demands left
    have hright := compileExpr_demands right
    by_cases h1 : op = .and
    · subst h1
      simp only [compileExpr, Expr.Codable]
      exact (hleft.bind fun _ => (Demands.emit _ _).bind fun _ => hright.bind fun _ => (Demands.emit _ _).bind
        fun _ => (Demands.patch _ _).bind fun _ => (Demands.put _ _).bind fun _ => .patch _ _).weaken
          fun _ h => ⟨h.1, h.2.2.1, fun hne => absurd rfl hne⟩
    by_cases h2 : op = .or
    · subst h2
      simp only [compileExpr, Expr.Codable]
      exact (hleft.bind fun _ => (Demands.emit _ _).bind fun _ => (Demands.put _ _).bind fun _ =>
        (Demands.emit _ _).bind fun _ => (Demands.patch _ _).bind fun _ => hright.bind fun _ => .patch _ _).weaken
          fun _ h => ⟨h.1, h.2.2.2.2.2.1, fun _ hne => absurd rfl hne⟩
    rw [compileExpr_binary h1 h2]
    simp only [Expr.Codable]
    cases hc : opcodeOf? op left.ty.kind with
    | some code =>
      exact (hleft.bind fun _ => hright.bind fun _ => .put code []).weaken fun _ h =>
        ⟨h.1, h.2.1, fun _ _ => ⟨code, rfl⟩⟩
    | none =>
      exact (hleft.bind fun _ => hright.bind fun _ => Demands.throw (P := fun _ => False) (S := id)).weaken
        fun _ h => h.2.2.elim
  | .index _ left key => by
    simp only [compileExpr, Expr.Codable]
    exact ((compileExpr_demands left).bind fun _ => (compileExpr_demands key).bind fun _ => .put _ _).weaken
      fun _ h => ⟨h.1, h.2.1⟩
  | .slice _ left start stop => by
    simp only [compileExpr, Expr.Codable]
    exact ((compileExpr_demands left).bind fun _ => (compileOptional_demands start).bind fun _ =>
      (compileOptional_demands stop).bind fun _ => .put _ _).weaken fun _ h => ⟨h.1, h.2.1, h.2.2.1⟩
  | .dot _ left key => by
    simp only [compileExpr, Expr.Codable]
    exact ((compileExpr_demands left).bind fun _ => (Demands.emitConstant _).bind fun _ => .put _ _).weaken
      fun _ h => h.1
  | .group _ e | .any _ e => by
    simp only [compileExpr, Expr.Codable]
    exact compileExpr_demands e
  | .call .. | .assert .. => by
    simp only [compileExpr]
    exact .throw

theorem compileList_demands : (es : List Expr) → Demands (compileList es) (Expr.AllCodable · es) id
  | [] => by
    simp only [compileList, Expr.AllCodable]
    exact .pure ()
  | e :: es => by
    simp only [compileList, Expr.AllCodable]
    exact (compileExpr_demands e).bind fun _ => compileList_demands es

theorem compilePairs_demands : (ps : List (String × Expr)) →
    Demands (compilePairs ps) (Expr.PairsCodable · ps) id
  | [] => by
    simp only [compilePairs, Expr.PairsCodable]
    exact .pure ()
  | (key, e) :: ps => by
    simp only [compilePairs, Expr.PairsCodable]
    exact ((Demands.emitConstant _).bind fun _ => (compileExpr_demands e).bind fun _ =>
      compilePairs_demands ps).weaken fun _ h => h.2

theorem compileOptional_demands : (e : Option Expr) → Demands (compileOptional e) (Expr.BoundCodable · e) id
  | some e => by
    simp only [compileOptional, Expr.BoundCodable]
    exact compileExpr_demands e
  | none => by
    simp only [compileOptional, Expr.BoundCodable]
    exact .put _ _

end

theorem compileDecl_demands (var : Var) (value : Expr) :
    Demands (compileDecl var value) (value.Codable ·) fun sy => (sy.define var.name).2 :=
  ((compileExpr_demands value).bind fun _ => (Demands.define var.name).bind fun _ => .put _ _).weaken fun _ h => h.1

theorem compileAssign_demands (target value : Expr) :
    Demands (compileAssign target value) (fun sy => value.Codable sy ∧ target.Codable sy) id := by
  unfold compileAssign
  refine (compileExpr_demands value).bind (Q := target.Codable) (T := id) fun _ => ?_
  cases target with
  | var _ name =>
    simp only [Expr.Codable]
    exact ((Demands.resolve name).bind fun _ => .put _ _).weaken fun _ h => h.1
  | index _ left key =>
    simp only [Expr.Codable]
    exact ((compileExpr_demands left).bind fun _ => (compileExpr_demands key).bind fun _ => .put _ _).weaken
      fun _ h => ⟨h.1, h.2.1⟩
  | dot _ left key =>
    simp only [Expr.Codable]
    exact ((compileExpr_demands left).bind fun _ => (Demands.emitConstant _).bind fun _ => .put _ _).weaken
      fun _ h => h.1
  | _ => exact .throw

theorem compileRange_demands (range : Range) : Demands (compileRange range) (range.Codable ·) id := by
  cases range with
  | step start stop stride =>
    exact ((compileOptional_demands start).bind fun _ => (compileExpr_demands stop).bind fun _ =>
      (compileOptional_demands stride).bind fun _ => .put _ _).weaken fun _ h => ⟨h.1, h.2.1, h.2.2.1⟩
  | «over» e => exact compileExpr_demands e

theorem compileHead_demands (var : Option Var) : Demands (compileHead var) (fun _ => True)
    fun sy => match var with
      | some x => (sy.define x.name).2
      | none => sy := by
  unfold compileHead
  cases var with
  | some x =>
    dsimp only
    exact ((Demands.emit _ _).bind fun head => (Demands.define x.name).bind fun _ => (Demands.put _ _).bind
      fun _ => .pure head).weaken fun _ _ => trivial
  | none => exact ((Demands.emit _ _).bind fun head => .pure head).weaken fun _ _ => trivial

/-- Compiling the body of a branch, whose condition was found at the same place. -/
def BlockDemands (b : Block) : Prop :=
  Demands (compileBlock b) (Block.Codable · b) (blockSymbols · b)

theorem compileBranch_demands {m : Token} {cm : Option String} {test : Expr} {body : Block}
    (h : BlockDemands body) : Demands (compileBranch (.mk m cm test body))
      (fun sy => test.Codable sy ∧ Block.Codable sy body) (blockSymbols · body) := by
  unfold compileBranch
  exact ((compileExpr_demands test).bind fun _ => (Demands.emit _ _).bind fun _ => h.bind fun _ =>
    (Demands.emit _ _).bind fun stop => (Demands.patch _ _).bind fun _ => .pure stop).weaken
      fun _ hP => ⟨hP.1, hP.2.2.1⟩

mutual

theorem compileStmt_demands : (s : Stmt) → Demands (compileStmt s) (Stmt.Codable · s) (stmtSymbols · s)
  | .empty .. => by
    simp only [compileStmt, Stmt.Codable, stmtSymbols]
    exact .pure ()
  | .typedDecl _ _ var value | .inferredDecl _ _ var value => by
    simp only [compileStmt, Stmt.Codable, stmtSymbols]
    exact compileDecl_demands var value
  | .assign _ _ target value => by
    simp only [compileStmt, Stmt.Codable, stmtSymbols]
    exact compileAssign_demands target value
  | .cond _ _ (.mk m cm test body) more none => by
    simp only [compileStmt, Stmt.Codable, stmtSymbols, Block.LastCodable, lastSymbols]
    exact ((compileBranch_demands (compileBlock_demands body)).bind fun stop =>
      (compileBranches_demands #[stop] more).bind fun stops => .patchAll stops.toList).weaken
        fun _ h => ⟨h.1.1, h.1.2, h.2.1, trivial⟩
  | .cond _ _ (.mk m cm test body) more (some block) => by
    simp only [compileStmt, Stmt.Codable, stmtSymbols, Block.LastCodable, lastSymbols]
    exact ((compileBranch_demands (compileBlock_demands body)).bind fun stop =>
      (compileBranches_demands #[stop] more).bind fun stops => (compileBlock_demands block).bind fun _ =>
        .patchAll stops.toList).weaken fun _ h => ⟨h.1.1, h.1.2, h.2.1, h.2.2.1⟩
  | .loop _ (.mk _ _ test body) => by
    simp only [compileStmt, Stmt.Codable, stmtSymbols]
    have hstart : Demands here (fun _ => True) id := fun _ _ _ hr => by cases hr; exact ⟨trivial, rfl⟩
    exact (hstart.bind fun start => (compileExpr_demands test).bind fun _ => (Demands.emit _ _).bind fun stop =>
      (Demands.loopBody start false (compileBlock_demands body)).bind fun _ => .patch stop 0).weaken
        fun _ h => ⟨h.2.1, h.2.2.2.1⟩
  | .each _ _ var range body => by
    simp only [compileStmt, Stmt.Codable, stmtSymbols]
    have hbody := ((compileHead_demands var).bind fun head =>
      (Demands.loopBody head true (compileBlock_demands body)).bind fun _ => .pure head).nested
    exact ((compileRange_demands range).bind fun _ => hbody.bind fun head => .patch head 1).mono
      (fun sy h => ⟨h.1, by cases var <;> exact h.2.1.2.1⟩) fun sy => by cases var <;> rfl
  | .brk token _ => by
    simp only [compileStmt, Stmt.Codable, stmtSymbols]
    exact .breakLoop token
  | .call .. | .ret .. | .func .. | .on .. => by
    simp only [compileStmt]
    exact .throw

theorem compileBranches_demands (stops : Array Nat) : (bs : List Branch) →
    Demands (compileBranches stops bs) (Branch.AllCodable · bs) (branchesSymbols · bs)
  | [] => by
    simp only [compileBranches, Branch.AllCodable, branchesSymbols]
    exact .pure stops
  | .mk m cm test body :: more => by
    simp only [compileBranches, Branch.AllCodable, branchesSymbols]
    exact ((compileBranch_demands (compileBlock_demands body)).bind fun stop =>
      compileBranches_demands (stops.push stop) more).weaken fun _ h => ⟨h.1.1, h.1.2, h.2⟩

theorem compileBlock_demands : (b : Block) → BlockDemands b
  | .mk _ _ stmts => by
    unfold BlockDemands
    simp only [compileBlock, Block.Codable, blockSymbols]
    exact (compileStmts_demands stmts).nested

theorem compileStmts_demands : (ss : List Stmt) →
    Demands (compileStmts ss) (Stmt.AllCodable · ss) (stmtsSymbols · ss)
  | [] => by
    simp only [compileStmts, Stmt.AllCodable, stmtsSymbols]
    exact .pure ()
  | s :: ss => by
    simp only [compileStmts, Stmt.AllCodable, stmtsSymbols]
    exact (compileStmt_demands s).bind fun _ => compileStmts_demands ss

end

/-- The statements of a program that is compiled have code. -/
theorem compile_codable {p : Program} {a : Assembly} (h : ({} : Assembly).compile p = .ok a) :
    Stmt.AllCodable {} p.stmts := by
  unfold Assembly.compile at h
  cases hrun : (compileStmts p.stmts).run {} with
  | error e =>
    rw [hrun] at h
    cases h
  | ok r => exact (compileStmts_demands p.stmts _ r.1 r.2 hrun).1

end TinyScript.Bytecode
