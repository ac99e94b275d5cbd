import TinyScript.Proofs.Scribing.BlockStatements

/-!
# Copies of statements in blocks

Statements are copied one after the other, and by the bound on their nesting all statements of a block are.
-/

namespace TinyScript.Parsing
open Layout Word

variable {d : Draft} {σ : List Bool} {n level : Nat} {inBody : Bool} {rows : List Row} {block : Blocks}

/-- What is read after the rows of a statement, or without one. -/
def AddsAny (d : Draft) (σ : List Bool) (n level : Nat) (inBody : Bool) (rows : List Row) :
    Option Stmt → State → Prop
  | none => Lines d σ n level inBody rows
  | some stmt => Adds d σ n level inBody rows stmt

theorem Lines.skipBlank {s : State} (h : Lines d σ n level inBody rows s) (hk : s.cur.kind = .ws) :
    Lines d σ n level inBody rows s.advance := by
  obtain ⟨declared, hon⟩ := h.starts (by rw [hk]; nofun)
  exact ⟨declared, hon.1, (hon.2.advanceBlank hk).1.whole⟩

theorem stmtsRows_append (level : Nat) (ss : List Stmt) (stmt : Stmt) :
    stmtsRows level (ss ++ [stmt]) = stmtsRows level ss ++ stmtRows level stmt := by
  induction ss with
  | nil => simp [stmtsRows]
  | cons s ss ih => rw [List.cons_append, stmtsRows, stmtsRows, ih, List.append_assoc]

section
variable (hknows : d.Knows) (hsp : σ.headD false = false) (hblock : BlocksWrite d σ block)
include hknows hsp hblock

theorem statement_writes (level : Nat) (inBody : Bool) (rows : List Row) (hbody : inBody → level ≠ 0) :
    Parses (Lines d σ n level inBody rows) (statement block).run (AddsAny d σ n level inBody rows) := by
  have hadds {m : Attempt Stmt} {P : State → Prop} (h : Gets P m (Adds d σ (n + 1) level inBody rows)) :
      Parses P m.run (AddsAny d σ n level inBody rows) :=
    Parses.conseq h (fun _ => id) fun r s ⟨stmt, hr, hs⟩ => by subst hr; exact hs.mono (Nat.le_succ _)
  have hfails {P : State → Prop} (problem : Problem) : Parses P (orNextLine (fail problem : Attempt Stmt)).run
      (AddsAny d σ n level inBody rows) :=
    hadds (Gets.orNextLine (Aborts.fail problem).gets)
  unfold statement
  refine Parses.liftBind (Parses.state (Q := fun t s => Lines d σ n level inBody rows s ∧ s = t) fun s hs => ⟨hs, rfl⟩)
    fun t => ?_
  split
  · next hk =>
    refine (Parses.bind (Parses.moveTo (Q := fun _ => Lines d σ n level inBody rows) State.moves_advance ?_)
      fun _ => .pure fun _ => id)
    rintro s ⟨hs, rfl⟩
    exact hs.skipBlank hk
  · next hk =>
    refine hadds (.lift (emptyLine_writes.conseq ?_ fun _ _ => id))
    rintro s ⟨hs, rfl⟩
    exact ⟨hs, .inl hk⟩
  · next hk =>
    refine hadds (.lift (emptyLine_writes.conseq ?_ fun _ _ => id))
    rintro s ⟨hs, rfl⟩
    exact ⟨hs, .inr hk⟩
  · next hk =>
    have hkind {s : State} (hs : s = t) : s.cur.kind = .ident := hs ▸ hk
    split
    · exact hadds ((assignment_writes hknows hsp).conseq (fun s hs => ⟨hs.1, hkind hs.2⟩) fun _ _ => id)
    · exact hadds ((assignment_writes hknows hsp).conseq (fun s hs => ⟨hs.1, hkind hs.2⟩) fun _ _ => id)
    · next hpeek =>
      exact hadds (.lift ((typedDecl_writes hknows hsp).conseq (fun s hs => ⟨hs.1, hkind hs.2, hs.2 ▸ hpeek⟩)
        fun _ _ => id))
    · next hpeek =>
      exact hadds ((inferredDecl_writes hknows hsp).conseq (fun s hs => ⟨hs.1, hkind hs.2, hs.2 ▸ hpeek⟩) fun _ _ => id)
    · split
      · next hfn =>
        refine hadds ((callStmt_writes hknows).conseq (fun s hs => ⟨hs.1, hkind hs.2, ?_⟩) fun _ _ => id)
        obtain ⟨⟨declared, -, hwhole⟩, rfl⟩ := hs
        rw [← hwhole.isFunc hknows]
        exact hfn
      · split
        · exact hadds ((assignment_writes hknows hsp).conseq (fun s hs => ⟨hs.1, hkind hs.2⟩) fun _ _ => id)
        · exact hfails _
  · next hk => exact hadds (.lift ((returnStmt_writes hknows hsp).conseq (fun s hs => ⟨hs.1, hs.2 ▸ hk⟩) fun _ _ => id))
  · next hk => exact hadds (.lift (breakStmt_writes.conseq (fun s hs => ⟨hs.1, hs.2 ▸ hk⟩) fun _ _ => id))
  · next hk =>
    exact hadds ((eachStmt_writes hknows hsp hblock hbody).conseq (fun s hs => ⟨hs.1, hs.2 ▸ hk⟩) fun _ _ => id)
  · next hk =>
    exact hadds ((whileStmt_writes hknows hsp hblock hbody).conseq (fun s hs => ⟨hs.1, hs.2 ▸ hk⟩) fun _ _ => id)
  · next hk =>
    refine Parses.conseq (ifStmt_writes (n := n) hknows hsp hblock rows hbody) (fun s hs => ⟨hs.1, hs.2 ▸ hk⟩) ?_
    rintro r s ⟨stmt, rfl, hs⟩
    exact hs
  · exact hfails _

theorem stmtsWithin_writes (level : Nat) (inBody : Bool) (rows : List Row) (hbody : inBody → level ≠ 0)
    (ends : List TokenKind) (fuel : Nat) (done : Array Stmt)
    (terminated : Bool) :
    Parses (Lines d σ n level inBody (rows ++ stmtsRows level done.toList))
    (stmtsWithin block ends fuel done terminated)
      fun ss => Lines d σ n level inBody (rows ++ stmtsRows level ss) := by
  induction fuel generalizing done terminated with
  | zero => exact .pure fun _ => id
  | succ fuel ih =>
    refine .lookThen fun token => ?_
    split
    · exact .pure fun _ hs => hs.1
    refine Parses.bind ((statement_writes hknows hsp hblock level inBody _ hbody).conseq
      (fun _ hs => hs.1) fun _ _ => id) fun r => ?_
    cases r with
    | none => exact ih done terminated
    | some stmt =>
      dsimp only
      split
      · exact (Parses.reportedAt (Q := fun _ _ => False)).bind fun _ => (ih done terminated).never
      · refine (ih (done.push stmt) _).conseq ?_ fun _ _ => id
        intro s hs
        rw [Array.toList_push, stmtsRows_append, ← List.append_assoc]
        exact hs

omit hblock in
theorem blockWithin_writes (fuel : Nat) : BlocksWrite d σ (blockWithin fuel) := by
  induction fuel with
  | zero =>
    exact fun ends n level inBody rows => .pure fun s hs =>
      ⟨rfl, by simpa [show (default : Block).stmts = [] from rfl, stmtsRows] using hs⟩
  | succ fuel ih =>
    intro ends n level inBody rows
    refine .lookThen fun token => Parses.bind (Parses.state (Q := fun _ => Lines d σ n (level + 1) inBody rows)
      fun s hs => hs.1) fun t => ?_
    refine Parses.bind ((stmtsWithin_writes (n := n) hknows hsp ih (level + 1) inBody rows
      (fun _ => Nat.succ_ne_zero level) ends t.fuel #[] false).conseq
      (fun s hs => by simpa [stmtsRows] using hs) fun _ _ => id) fun ss => ?_
    dsimp only
    split
    · exact (Parses.reportedAt (Q := fun _ _ => False)).bind fun _ => .pure fun _ => False.elim
    · exact .pure fun s hs => ⟨rfl, hs⟩

omit hblock in
theorem block_writes : BlocksWrite d σ Parsing.block := by
  intro ends n level inBody rows
  refine Parses.bind (Parses.state (Q := fun _ => Lines d σ n (level + 1) inBody rows) fun s hs => hs) fun t => ?_
  exact blockWithin_writes hknows hsp t.fuel ends n level inBody rows

end

end TinyScript.Parsing
