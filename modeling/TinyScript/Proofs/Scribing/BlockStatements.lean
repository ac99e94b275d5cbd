import TinyScript.Proofs.Scribing.SimpleStatements
import TinyScript.Proofs.Parsing.Statements

/-!
# Copies of statements with blocks

A block is copied as the rows of its statements, one level further in, and its end as a row of its own.
-/

namespace TinyScript.Parsing
open Layout Word

variable {d : Draft} {σ : List Bool} {n m level : Nat} {inBody : Bool} {p q : Page} {c c' : Scribe}
  {words w : List Word} {rows : List Row} {s : State} {declared : List String}

/-! ### Scopes -/

theorem Lines.withScopes {ss : Scopes} (h : Lines d σ n level inBody rows s) (hss : ss.names ⊆ s.scopes.names) :
    Lines d σ n level inBody rows { s with scopes := ss } := by
  obtain ⟨declared, hplain, hwhole⟩ := h
  exact ⟨declared, hplain, { hwhole with scopes := List.Subset.trans hss hwhole.scopes }⟩

section
variable {P : State → Prop} {Q : PUnit → State → Prop}

theorem Parses.openScope {kind : ScopeKind} (h : ∀ s, P s → Q ⟨⟩ { s with scopes := s.scopes.enter kind }) :
    Parses P (Parsing.enterScope kind) Q :=
  setScopes h

theorem Parses.closeScope (h : ∀ s, P s → Q ⟨⟩ { s with scopes := s.scopes.tail }) : Parses P Parsing.leaveScope Q := by
  have hreport (l : List Var) : Parses (Q ⟨⟩) (l.forM fun v => Parsing.reportAt v.token (.unused v.name)) Q := by
    induction l with
    | nil => exact .pure fun _ => id
    | cons v l ih => exact (Parses.reportedAt (Q := fun _ => Q ⟨⟩)).bind fun _ => ih
  refine Parses.bind (Parses.state (Q := fun _ => P) fun _ => id) fun t => ?_
  exact Parses.bind (Parses.setScopes (Q := fun _ => Q ⟨⟩) h) fun _ => hreport _

end

/-! ### Blocks -/

/-- The parser `block` copies the statements that it reads. -/
def BlocksWrite (d : Draft) (σ : List Bool) (block : Blocks) : Prop :=
  ∀ ends n level inBody rows, Parses (Lines d σ n (level + 1) inBody rows) (block ends) fun b s =>
    b.comment = none ∧ Lines d σ n (level + 1) inBody (rows ++ stmtsRows (level + 1) b.stmts) s

/-- The kind of the row that ends a block at a level. -/
def endKind (level : Nat) (inBody : Bool) : RowKind :=
  if level ≠ 0 then .inner else if inBody then .closer else .outer

theorem blockEnd_writes (level : Nat) (inBody : Bool) (hsp : σ.headD false = false) :
    Parses (Lines d σ n (level + 1) inBody rows) blockEnd fun comment =>
      Lines d σ n level (inBody && level != 0)
      (rows ++ [row level (sign .end :: trailing comment) (endKind level inBody)]) := by
  refine Parses.bind (Parses.expectThen .end (Q := fun _ s => Lines d σ n (level + 1) inBody rows s ∧ s.cur.kind = .end)
    fun s hs hk => ⟨hs, hk⟩) fun _ => ?_
  refine Parses.line (fun s hs => by simp [hs]) fun declared => ?_
  obtain ⟨c, hc⟩ : ∃ c : Scribe, c = { Scribe.atLine (level + 1) inBody declared with
    place := .ended, nextLevel := level, nextInBody := inBody && level != 0, kind := endKind level inBody } := ⟨_, rfl⟩
  refine Parses.bind (Parses.moveTo (Q := fun _ s => Plain d declared ∧ s.cur.kind ≠ .ws ∧
    On d σ n (⟨rows, indent level ++ [sign .end], c⟩ : Page) s) State.moves_advance ?_) fun _ => ?_
  · rintro s ⟨hs, hk⟩
    refine ⟨hs.1, hs.2.cur_advance_ne hsp, ?_⟩
    have hstroke : startStroke (Scribe.atLine (level + 1) inBody declared) .end s.cur.literal =
        some (indent level ++ [sign .end], c) := by
      subst hc
      cases level <;> simp [startStroke, Scribe.atLine, endKind]
    exact (hs.step hk ⟨by simp, by simp⟩ hstroke (by subst hc; simp)).mono (Nat.le_succ _)
  refine .lookThen fun comment => Parses.bind (Parses.moveTo (Q := fun _ => Lines d σ n level (inBody && level != 0)
    (rows ++ [row level (sign .end :: trailing comment) (endKind level inBody)])) State.moves_nextLine ?_) fun _ =>
    .pure fun _ => id
  rintro s ⟨⟨hplain, hws, hon⟩, rfl⟩
  have hwhole := On.ended (p := (⟨rows, [], c⟩ : Page)) hon (by subst hc; rfl) hws
  refine ⟨declared, hplain, ?_⟩
  subst hc
  simpa [blankPage, row, Scribe.nextLine, Scribe.atLine] using hwhole

/-- What a block adds, with the comment on its end. -/
theorem Lines.block (rows : List Row) (b : Block) {comment : Option String} {kind : RowKind}
    (h : Lines d σ n level inBody
      (rows ++ stmtsRows (level + 1) b.stmts ++ [row level (sign .end :: trailing comment) kind]) s) :
    Lines d σ n level inBody (rows ++ blockRows level kind (b.withComment comment)) s := by
  cases b
  simpa [blockRows, Block.withComment] using h

/-- Where functions and handlers do not end, blocks end as in any statement. -/
theorem endKind_eq (hbody : inBody → level ≠ 0) :
    (inBody && level != 0) = inBody ∧ endKind level inBody = plainKind level := by
  cases inBody with
  | true =>
    have hlevel := hbody rfl
    simp [hlevel, endKind, plainKind]
  | false =>
    cases level <;> simp [endKind, plainKind]

theorem moreRows_append (level : Nat) (bs : List Branch) (b : Branch) :
    moreRows level (bs ++ [b]) = moreRows level bs ++ branchRows level [sign .else, space, sign .if, space] b := by
  induction bs with
  | nil => simp [moreRows]
  | cons b' bs ih => rw [List.cons_append, moreRows, moreRows, ih, List.append_assoc]

theorem mapM_some {α : Type} (l : List α) : (l.map some).mapM id = some l := by
  induction l with
  | nil => rfl
  | cons a l ih => simp [List.mapM_cons, ih]

/-! ### Ranges -/

/-- Reads a range, of which the arguments are copied. -/
theorem stepRange_writes {P : State → Prop} (first : Expr) (rest : List Expr) (token : Token) :
    Gets P (stepRange (first :: rest) token) fun range s =>
      P s ∧ ∀ level, Layout.range level range = arguments level (first :: rest) := by
  refine .ifFail (.failAt _ _) fun hlen => ?_
  dsimp only
  split
  · exact (Aborts.bind (.failAt _ _) _).gets
  · match rest with
    | [] => exact .pure fun s hs => ⟨hs, fun _ => rfl⟩
    | [_] => exact .pure fun s hs => ⟨hs, fun _ => rfl⟩
    | [_, _] => exact .pure fun s hs => ⟨hs, fun _ => rfl⟩
    | _ :: _ :: _ :: _ => exact absurd (by simp) hlen

theorem rangeOf_writes {P : State → Prop} (first : Expr) (rest : List Expr) (token : Token)
    (hrest : rest ≠ [] → first.ty.same .num) : Parses P (rangeOf first (first :: rest) token) fun r s =>
      ∃ range, r.1 = some range ∧ P s ∧ ∀ level, Layout.range level range = arguments level (first :: rest) := by
  have hover (hkind : first.ty.kind ≠ .num) (level : Nat) :
      Layout.range level (.over first) = arguments level (first :: rest) := by
    have hnil : rest = [] := Decidable.byContradiction fun hne => hkind <| by
      have hsame := hrest hne
      cases hty : first.ty with
      | leaf k _ =>
        rw [hty] at hsame
        exact beq_iff_eq.1 hsame
      | of => rw [hty] at hsame; cases hsame
    rw [hnil]
    rfl
  unfold rangeOf
  dsimp only
  split <;> rename_i hk
  · exact .pure fun s hs => ⟨_, rfl, hs, hover (by rw [hk]; nofun)⟩
  · exact .pure fun s hs => ⟨_, rfl, hs, hover (by rw [hk]; nofun)⟩
  · exact .pure fun s hs => ⟨_, rfl, hs, hover (by rw [hk]; nofun)⟩
  · refine Parses.bind (stepRange_writes first rest token) fun r => .pure fun s hs => ?_
    exact hs
  · exact (Parses.reportedHere (Q := fun _ _ => False)).bind fun _ => .pure fun _ => False.elim

/-! ### Loops with conditions -/

theorem condition_writes (level : Nat) (hknows : d.Knows) (hsp : σ.headD false = false) (hframes : c.frames = [])
    (hplace : c.place = .operand true .space) (hlevel : c.level = level) :
    Gets (On d σ n (⟨rows, words, c⟩ : Page)) condition fun e s => s.atLineEnd ∧ ∃ c', Finishes d.fn c c' ∧
      c'.declared = c.declared ∧ On d σ n (⟨rows, words ++ space :: expr level e, c'⟩ : Page) s := by
  refine .lookThen fun token => Gets.bind ((assigned_writes level hknows hsp hframes hplace hlevel).conseq
    (fun s hs => hs.1) fun _ _ => id) fun e => ?_
  refine .liftBind (Parses.expectEnd (Q := fun _ s => s.atLineEnd ∧ ∃ c', Finishes d.fn c c' ∧
      c'.declared = c.declared ∧ On d σ n (⟨rows, words ++ space :: expr level e, c'⟩ : Page) s)
    fun s hs hend => ⟨hend, hs⟩) fun _ => ?_
  exact .unlessReport (.pure fun s hs => hs.2)

section
variable {block : Blocks} (hknows : d.Knows) (hsp : σ.headD false = false) (hblock : BlocksWrite d σ block)
include hknows hsp hblock

theorem whileStmt_writes (hbody : inBody → level ≠ 0) :
    Gets (fun s => Lines d σ n level inBody rows s ∧ s.cur.kind = .while) (whileStmt block)
      (Adds d σ (n + 1) level inBody rows) := by
  refine Gets.line (fun s hs => by rw [hs]; nofun) fun declared => ?_
  obtain ⟨c, hc⟩ : ∃ c, c = (Scribe.opening level inBody declared).goTo (.operand true .space) := ⟨_, rfl⟩
  refine .mk <| .lookThen fun token => Parses.bind (Parses.moveTo (Q := fun _ s => Plain d declared ∧
    On d σ (n + 1) (⟨rows, indent level ++ [sign .while], c⟩ : Page) s) State.moves_advance ?_) fun _ => ?_
  · rintro s ⟨⟨hs, hk⟩, -⟩
    subst hc
    exact ⟨hs.1, hs.step hk ⟨nofun, nofun⟩ rfl nofun⟩
  refine Parses.bind (Parses.openScope (Q := fun _ s => Plain d declared ∧
    On d σ (n + 1) (⟨rows, indent level ++ [sign .while], c⟩ : Page) s)
    fun s hs => ⟨hs.1, hs.2.withScopes hs.2.scopes⟩) fun _ => ?_
  -- what follows the condition reads on also if there was none
  have hrest (condition : Option Expr) (words : List Word) : Parses (LineDone d σ (n + 1) rows words c) (do
      let comment ← comment?
      nextLine
      let body ← block [.end, .eof]
      leaveScope
      let endComment ← blockEnd
      return condition.map fun e => .loop token (.mk token comment e (body.withComment endComment))) fun r s =>
        ∃ comment body, (r = condition.map fun e => Stmt.loop token (.mk token comment e body)) ∧
          Lines d σ (n + 1) level inBody
            (rows ++ ⟨words ++ trailing comment ++ [newline], .inner⟩ :: blockRows level (plainKind level) body) s := by
    refine .toNextLine fun comment => Parses.bind ((hblock [.end, .eof] (n + 1) level inBody
      (rows ++ [⟨words ++ trailing comment ++ [newline], .inner⟩])).conseq (fun s hs => by subst hc; exact hs)
      fun _ _ => id)
      fun body => ?_
    refine Parses.bind (Parses.closeScope fun s hs => hs.2.withScopes (Scopes.names_tail _)) fun _ =>
      Parses.bind (blockEnd_writes level inBody hsp) fun endComment => .pure fun s hs => ⟨comment, _, rfl, ?_⟩
    obtain ⟨hlast, hkind⟩ := endKind_eq hbody
    rw [hlast, hkind] at hs
    simpa using hs.block _ _
  refine Parses.bind (condition_writes level hknows hsp (by rw [hc]; rfl) (by rw [hc]; rfl)
    (by rw [hc]; rfl)).frame fun condition => ?_
  cases condition with
  | none =>
    exact (hrest none []).never.conseq (fun s hs => by simp at hs) fun _ _ => id
  | some e =>
    refine (hrest (some e) (indent level ++ [sign .while] ++ space :: expr level e)).conseq ?_ ?_
    · rintro s ⟨e', he, hplain, hend, hon⟩
      cases he
      exact ⟨by subst hc; exact hplain, hend, hon⟩
    · rintro r s ⟨comment, body, rfl, hs⟩
      exact ⟨_, rfl, by simpa [Adds, stmtRows, row] using hs⟩

/-! ### Branches -/

/-- Reads a branch, of which the `if` is copied as `w`. -/
theorem branch_writes {c₀ : Scribe} (hc : c = (Scribe.opening level inBody declared).goTo (.operand true .space))
    (hstroke : ∀ literal blank, stroke d.fn c₀ .if literal blank = some (w, c)) {lead : List Word}
    (hlead : words ++ w ++ [space] = indent level ++ lead) (ends : List TokenKind) :
    Parses (fun s => Plain d declared ∧ s.cur.kind = .if ∧ On d σ n (⟨rows, words, c₀⟩ : Page) s) (branch block ends)
      fun r s => ∃ b, r = some b ∧ Lines d σ n (level + 1) inBody (rows ++ branchRows level lead b) s := by
  refine .lookThen fun token => Parses.bind (Parses.moveTo (Q := fun _ s => Plain d declared ∧
    On d σ n (⟨rows, words ++ w, c⟩ : Page) s) State.moves_advance ?_) fun _ => ?_
  · rintro s ⟨⟨hplain, hk, hon⟩, -⟩
    have hstep := hon.step (by rw [hk]; nofun) (by rw [hk]; nofun) (w := w) (c := c) (by rw [hk]; exact hstroke _ _)
      (by rw [hc]; nofun)
    exact ⟨hplain, hstep.toOn.mono (Nat.le_succ _)⟩
  -- what follows the condition reads on also if there was none
  have hrest (condition : Option Expr) (words : List Word) : Parses (LineDone d σ n rows words c) (do
      let comment ← comment?
      nextLine
      let body ← block ends
      return condition.map fun e => .mk token comment e body) fun r s => ∃ comment body,
        (r = condition.map fun e => Branch.mk token comment e body) ∧ Lines d σ n (level + 1) inBody
          (rows ++ ⟨words ++ trailing comment ++ [newline], .inner⟩ :: stmtsRows (level + 1) body.stmts) s := by
    refine .toNextLine fun comment => Parses.bind ((hblock ends n level inBody
      (rows ++ [⟨words ++ trailing comment ++ [newline], .inner⟩])).conseq (fun s hs => by subst hc; exact hs)
      fun _ _ => id)
      fun body => .pure fun s hs => ⟨comment, body, rfl, by simpa using hs.2⟩
  refine Parses.bind (condition_writes level hknows hsp (by rw [hc]; rfl) (by rw [hc]; rfl)
    (by rw [hc]; rfl)).frame fun condition => ?_
  cases condition with
  | none => exact (hrest none []).never.conseq (fun s hs => by simp at hs) fun _ _ => id
  | some e =>
    refine (hrest (some e) (words ++ w ++ space :: expr level e)).conseq ?_ ?_
    · rintro s ⟨e', he, hplain, hend, hon⟩
      cases he
      exact ⟨by subst hc; exact hplain, hend, hon⟩
    · rintro r s ⟨comment, ⟨_, _, ss⟩, rfl, hs⟩
      refine ⟨_, rfl, ?_⟩
      have hwords : words ++ w ++ space :: expr level e = indent level ++ lead ++ expr level e := by
        rw [← hlead, List.append_assoc _ [space], List.singleton_append]
      rw [hwords] at hs
      simpa [branchRows, row, Block.stmts] using hs

theorem scopedBranch_writes (c₀ : Scribe) (words lead : List Word)
    (hc : c = (Scribe.opening level inBody declared).goTo (.operand true .space))
    (hstroke : ∀ literal blank, stroke d.fn c₀ .if literal blank = some (w, c))
    (hlead : words ++ w ++ [space] = indent level ++ lead) :
    Parses (fun s => Plain d declared ∧ s.cur.kind = .if ∧ On d σ n (⟨rows, words, c₀⟩ : Page) s) (scopedBranch block)
      fun r s => ∃ b, r = some b ∧ Lines d σ n (level + 1) inBody (rows ++ branchRows level lead b) s := by
  refine Parses.bind (Parses.openScope (Q := fun _ s => Plain d declared ∧ s.cur.kind = .if ∧
    On d σ n (⟨rows, words, c₀⟩ : Page) s) fun s hs => ⟨hs.1, hs.2.1, hs.2.2.withScopes hs.2.2.scopes⟩) fun _ =>
    Parses.bind (branch_writes hknows hsp hblock hc hstroke hlead _) fun r => Parses.bind (Parses.closeScope
      (Q := fun _ s => ∃ b, r = some b ∧ Lines d σ n (level + 1) inBody (rows ++ branchRows level lead b) s) ?_)
        fun _ => .pure fun _ => id
  rintro s ⟨b, hb, hs⟩
  exact ⟨b, hb, hs.withScopes (Scopes.names_tail _)⟩

theorem moreBranches_writes (rows : List Row) (fuel : Nat) (done : Array (Option Branch)) (bs : List Branch) :
    Parses (fun s => done.toList = bs.map some ∧ Lines d σ n (level + 1) inBody (rows ++ moreRows level bs) s)
    (moreBranches block fuel done) fun r s =>
      ∃ bs, r = bs.map some ∧ Lines d σ n (level + 1) inBody (rows ++ moreRows level bs) s := by
  induction fuel generalizing done bs with
  | zero => exact .pure fun s hs => ⟨bs, hs⟩
  | succ fuel ih =>
    refine Parses.bind (Parses.state (Q := fun t s => (done.toList = bs.map some ∧
      Lines d σ n (level + 1) inBody (rows ++ moreRows level bs) s) ∧ s = t) fun s hs => ⟨hs, rfl⟩) fun t => ?_
    split
    · next helse =>
      simp only [Bool.and_eq_true, decide_eq_true_eq] at helse
      refine (Parses.line (K := fun s => done.toList = bs.map some ∧ s.cur.kind = .else ∧ s.peek.kind = .if)
        (fun s hs => by rw [hs.2.1]; nofun) fun declared => ?_).conseq
          (fun s hs => ⟨hs.1.2, hs.1.1, hs.2 ▸ helse⟩) fun _ _ => id
      obtain ⟨c₀, hc₀⟩ : ∃ c₀ : Scribe, c₀ = (Scribe.opening level inBody declared).goTo .otherwise := ⟨_, rfl⟩
      obtain ⟨c, hc⟩ : ∃ c, c = (Scribe.opening level inBody declared).goTo (.operand true .space) := ⟨_, rfl⟩
      refine Parses.bind (Parses.moveTo (Q := fun _ s => done.toList = bs.map some ∧ Plain d declared ∧
        s.cur.kind = .if ∧
        On d σ n (⟨rows ++ moreRows level bs, indent level ++ [sign .else], c₀⟩ : Page) s) State.moves_advance ?_)
          fun _ => ?_
      · rintro s ⟨hs, hdone, hk, hpeek⟩
        refine ⟨hdone, hs.1, ?_, ?_⟩
        · rw [hs.2.cur_advance hsp (by rw [hk]; nofun)]
          exact hpeek
        · subst hc₀
          exact (hs.step hk ⟨nofun, nofun⟩ rfl nofun).mono (Nat.le_succ _)
      refine Parses.bind (scopedBranch_writes (w := [space, sign .if]) hknows hsp hblock _ _
        [sign .else, space, sign .if, space] hc (fun _ _ => by subst hc hc₀; rfl) (by simp)).frame
        fun b? => ?_
      cases b? with
      | none => exact (ih (done.push none) bs).never.conseq (fun s hs => by simp at hs) fun _ _ => id
      | some b =>
        refine (ih (done.push (some b)) (bs ++ [b])).conseq ?_ fun _ _ => id
        rintro s ⟨hdone, b', hb', hs⟩
        cases hb'
        rw [moreRows_append]
        exact ⟨by simp [hdone], by simpa using hs⟩
    · exact .pure fun s hs => ⟨bs, hs.1⟩

omit hknows hsp in
theorem otherwise_writes : Parses (Lines d σ n (level + 1) inBody rows) (otherwise block) fun last s =>
    Lines d σ n (level + 1) inBody (rows ++ lastRows level last) s := by
  refine .lookThen fun kind => ?_
  split
  · exact .pure fun s hs => by simpa [lastRows] using hs.1
  next hk =>
  refine (Parses.line (K := fun s => s.cur.kind = .else) (fun s hs => by rw [hs]; nofun) fun declared => ?_).conseq
    (fun s hs => ⟨hs.1, hs.2.trans (Decidable.not_not.1 hk)⟩) fun _ _ => id
  obtain ⟨c, hc⟩ : ∃ c : Scribe, c = (Scribe.opening level inBody declared).goTo .otherwise := ⟨_, rfl⟩
  refine Parses.bind (Parses.moveTo (Q := fun _ s => Plain d declared ∧
    On d σ n (⟨rows, indent level ++ [sign .else], c⟩ : Page) s) State.moves_advance ?_) fun _ => ?_
  · rintro s ⟨hs, hk⟩
    subst hc
    exact ⟨hs.1, (hs.step hk ⟨nofun, nofun⟩ rfl nofun).mono (Nat.le_succ _)⟩
  refine Parses.bind (Parses.expectEnd (Q := fun _ => LineDone d σ n rows (indent level ++ [sign .else]) c) ?_)
    fun _ => ?_
  · rintro s ⟨hplain, hon⟩ hend
    refine ⟨by subst hc; exact hplain, hend, c, ⟨rfl, fun kind literal blank hk => ?_⟩, rfl, hon⟩
    subst hc
    cases kind <;> first | rfl | cases hk
  refine .toNextLine fun comment => Parses.bind (Parses.openScope (Q := fun _ => Lines d σ n (level + 1) inBody
    (rows ++ [⟨indent level ++ [sign .else] ++ trailing comment ++ [newline], .inner⟩]))
    fun s hs => ?_) fun _ => Parses.bind (hblock _ _ _ _ _) fun body => Parses.bind (Parses.closeScope
      (Q := fun _ => Lines d σ n (level + 1) inBody (rows ++ lastRows level (some (body.withComment comment)))) ?_)
        fun _ => .pure fun _ => id
  · subst hc
    exact Lines.withScopes hs (List.Subset.refl _)
  · rintro s ⟨-, hs⟩
    have hs := hs.withScopes (Scopes.names_tail _)
    simpa [lastRows, Block.withComment, row] using hs

theorem ifStmt_writes (rows : List Row) (hbody : inBody → level ≠ 0) :
    Gets (fun s => Lines d σ n level inBody rows s ∧ s.cur.kind = .if) (ifStmt block)
      (Adds d σ n level inBody rows) := by
  refine Gets.line (fun s hs => by rw [hs]; nofun) fun declared => ?_
  obtain ⟨c, hc⟩ : ∃ c, c = (Scribe.opening level inBody declared).goTo (.operand true .space) := ⟨_, rfl⟩
  refine .mk <| .lookThen fun token => ?_
  -- what follows the first branch reads on also if there was none
  have hrest (first? : Option Branch) (first : Branch) : Parses (fun s => first? = some first ∧
      Lines d σ n (level + 1) inBody (rows ++ branchRows level [sign .if, space] first) s) (do
        let more ← moreBranches block (← get).fuel #[]
        let last ← otherwise block
        let comment ← blockEnd
        return do
          let first ← first?
          let more ← more.mapM id
          return .cond token comment first more last) fun r s =>
            ∃ stmt, r = some stmt ∧ Adds d σ n level inBody rows stmt s := by
    refine Parses.bind (Parses.state (Q := fun _ s => first? = some first ∧
      Lines d σ n (level + 1) inBody (rows ++ branchRows level [sign .if, space] first) s) fun _ => id) fun t => ?_
    refine Parses.bind (((moreBranches_writes hknows hsp hblock (rows ++ branchRows level [sign .if, space] first)
      t.fuel #[] []).frame (φ := first? = some first)).conseq (fun s hs => ⟨hs.1, rfl, by simpa [moreRows] using hs.2⟩)
        fun _ _ => id) fun more => ?_
    refine (Parses.choose fun bs => ?_).conseq (P := fun s => ∃ bs : List Branch, (first? = some first ∧
      more = bs.map some) ∧
      Lines d σ n (level + 1) inBody (rows ++ branchRows level [sign .if, space] first ++ moreRows level bs) s)
        (fun s ⟨h, bs, h', hs⟩ => ⟨bs, ⟨h, h'⟩, hs⟩) fun _ _ => id
    refine Parses.bind (otherwise_writes hblock).frame fun last => Parses.bind (blockEnd_writes level inBody hsp).frame
      fun comment => .pure ?_
    rintro s ⟨⟨rfl, rfl⟩, hs⟩
    have hresult : ((bs.map some).mapM id).bind (fun more => some (Stmt.cond token comment first more last)) =
        some (.cond token comment first bs last) := by
      rw [mapM_some]
      rfl
    refine ⟨_, hresult, ?_⟩
    obtain ⟨hlast, hkind⟩ := endKind_eq hbody
    rw [hlast, hkind] at hs
    simpa [Adds, stmtRows] using hs
  refine Parses.bind (Q := fun first? s => ∃ first, first? = some first ∧
    Lines d σ n (level + 1) inBody (rows ++ branchRows level [sign .if, space] first) s) ?_ fun first? =>
    Parses.choose (hrest first?)
  refine (scopedBranch_writes (w := indent level ++ [sign .if]) hknows hsp hblock (.atLine level inBody declared) []
    [sign .if, space] hc (fun _ _ => by subst hc; rfl) (by simp)).conseq ?_ fun _ _ => id
  rintro s ⟨⟨⟨hplain, hon⟩, hk⟩, -⟩
  exact ⟨hplain, hk, hon⟩

end

/-! ### Loops through ranges -/

/-- The variable of a loop, each token after a blank. -/
def loopWords : Option Var → List Word
  | some v => [space, ident v.name, space, sign .declare]
  | none => []

theorem loopWords_append (v : Option Var) : loopWords v ++ [space] = space :: Layout.loopVar v := by
  cases v <;> rfl

theorem loopVar_writes (hknows : d.Knows) :
    Gets (fun s => Plain d declared ∧
      On d σ n (⟨rows, words, (Scribe.opening level inBody declared).goTo .loopVar⟩ : Page) s)
      loopVar fun v s => ∃ declared' place, Plain d declared' ∧ (∀ x, v = some x → x.name ∈ declared') ∧
        (place = .loopVar ∨ place = .loopRange) ∧
          On d σ n (⟨rows, words ++ loopWords v, (Scribe.opening level inBody declared').goTo place⟩ : Page) s := by
  refine .lookThen fun token => ?_
  dsimp only
  split
  · exact .pure fun s hs => ⟨declared, .loopVar, hs.1.1, nofun, .inl rfl, by simpa [loopWords] using hs.1.2⟩
  next hk =>
  have hk := Decidable.not_not.1 hk
  refine .liftBind (Parses.checkDecl (Q := fun b s => b = true ∧ Plain d (token.literal :: declared) ∧ s.cur = token ∧
    On d σ n (⟨rows, words, (Scribe.opening level inBody declared).goTo .loopVar⟩ : Page) s) ?_) fun b => ?_
  · rintro s ⟨⟨hplain, hon⟩, hcur⟩ hfn
    rw [hon.isFunc hknows] at hfn
    exact ⟨rfl, hplain.cons hfn, hcur, hon⟩
  refine .ite (fun _ => ?_) fun hb => .failure fun s hs => hb hs.1
  obtain ⟨c, hc⟩ : ∃ c, c = Scribe.opening level inBody (token.literal :: declared) := ⟨_, rfl⟩
  refine .moveTo (Q := fun s => Plain d (token.literal :: declared) ∧
    On d σ n (⟨rows, words ++ [space, ident token.literal], c.goTo .loopDeclare⟩ : Page) s) State.moves_advance ?_ ?_
  · rintro s ⟨-, hplain, rfl, hon⟩
    subst hc
    have hstep := hon.step (by rw [hk]; nofun) (by rw [hk]; nofun) (w := [space, ident s.cur.literal])
      (c := (Scribe.opening level inBody (s.cur.literal :: declared)).goTo .loopDeclare) (by rw [hk]; rfl) nofun
    exact ⟨hplain, hstep.toOn.mono (Nat.le_succ _)⟩
  refine .liftBind (Parses.expectThen .declare (Q := fun _ s => Plain d (token.literal :: declared) ∧
    s.cur.kind = .declare ∧
    On d σ n (⟨rows, words ++ [space, ident token.literal], c.goTo .loopDeclare⟩ : Page) s)
      fun s hs hk => ⟨hs.1, hk, hs.2⟩) fun _ => ?_
  refine .moveTo (Q := fun s => Plain d (token.literal :: declared) ∧ On d σ n (⟨rows, words ++
    loopWords (some ⟨token, token.literal, .none⟩), c.goTo .loopRange⟩ : Page) s) State.moves_advance ?_ ?_
  · rintro s ⟨hplain, hk, hon⟩
    subst hc
    have hstep := hon.step (by rw [hk]; nofun) (by rw [hk]; nofun) (w := [space, sign .declare])
      (c := (Scribe.opening level inBody (token.literal :: declared)).goTo .loopRange) (by rw [hk]; rfl) nofun
    exact ⟨hplain, by simpa [loopWords, Page.add] using hstep.toOn.mono (Nat.le_succ _)⟩
  · subst hc
    refine .pure fun s hs => ⟨_, .loopRange, hs.1, ?_, .inr rfl, hs.2⟩
    rintro x hx
    cases hx
    exact List.mem_cons_self

theorem eachHead_writes (hknows : d.Knows) :
    Gets (fun s => Plain d declared ∧
      On d σ n (⟨rows, words, (Scribe.opening level inBody declared).goTo .loopVar⟩ : Page) s)
      eachHead fun head s => ∃ declared' range, head.range = some range ∧
      (∀ x, head.var = some x → x.name ∈ declared') ∧
        LineDone d σ n rows (words ++ space :: Layout.loopVar head.var ++ sign .range :: Layout.range level range)
          (.opening level inBody declared') s := by
  refine .orNextLine <| Gets.bind (loopVar_writes hknows) fun v => ?_
  refine (Parses.choose fun (r : List String × Place) => ?_).conseq (P := fun s => ∃ r : List String × Place,
    (Plain d r.1 ∧ (∀ x, v = some x → x.name ∈ r.1) ∧ (r.2 = .loopVar ∨ r.2 = .loopRange)) ∧
      On d σ n (⟨rows, words ++ loopWords v, (Scribe.opening level inBody r.1).goTo r.2⟩ : Page) s)
        (fun s ⟨declared', place, h₁, h₂, h₃, hs⟩ => ⟨(declared', place), ⟨h₁, h₂, h₃⟩, hs⟩) fun _ _ => id
  obtain ⟨declared', place⟩ := r
  obtain ⟨c, hc⟩ : ∃ c, c = Scribe.opening level inBody declared' := ⟨_, rfl⟩
  refine Gets.bind (.require .range (Q := fun _ s => Plain d declared' ∧ (∀ x, v = some x → x.name ∈ declared') ∧
    (place = .loopVar ∨ place = .loopRange) ∧ s.cur.kind = .range ∧
      On d σ n (⟨rows, words ++ loopWords v, c.goTo place⟩ : Page) s) ?_) fun _ => .lookThen fun token => ?_
  · rintro s ⟨⟨hplain, hv, hplace⟩, hon⟩ hk
    exact ⟨hplain, hv, hplace, hk, hc ▸ hon⟩
  obtain ⟨before, hbefore⟩ : ∃ before, before = words ++ loopWords v ++ [space, sign .range] := ⟨_, rfl⟩
  refine .moveTo (Q := fun s => (Plain d declared' ∧ ∀ x, v = some x → x.name ∈ declared') ∧
    AtOperand d σ n (⟨rows, before, c.enter .args .argument⟩ : Page) (c.enter .args .argument) [space] s)
    State.moves_advance ?_ ?_
  · rintro s ⟨⟨hplain, hv, hplace, hk, hon⟩, -⟩
    have hstroke : stroke d.fn (c.goTo place) .range s.cur.literal s.afterBlank =
        some ([space, sign .range], c.enter .args .argument) := by
      subst hc
      rcases hplace with rfl | rfl <;> rfl
    have hstep := hon.step (by simp [hk]) (by simp [hk]) (w := [space, sign .range])
      (c := c.enter .args .argument) (by rw [hk]; exact hstroke) (by simp)
    have hopens {kind : TokenKind} (literal : String) (blank : Bool) (hstart : startsOperand kind) :
        stroke d.fn (c.enter .args .argument) kind literal blank =
          operandStroke d.fn (c.enter .args .argument) kind literal false [space] :=
      betweenStroke_operand (c := c.enter .args .argument) rfl hstart
    refine ⟨⟨hplain, hv⟩, ?_⟩
    rw [hbefore]
    exact { hstep.toOn.mono (Nat.le_succ _) with declared_eq := rfl, opens := hopens _ _ }
  refine Gets.bind ((exprList_writes (nested_writes hknows) (Nat.zero_le _)
    (show (c.enter .args .argument).frames = [.args] by subst hc; rfl)).frame)
    fun args => ?_
  rcases args with _ | ⟨first, rest⟩
  · exact (Aborts.fail _).gets
  refine .ifFail (.fail _) fun hone => ?_
  have hrest : rest ≠ [] → first.ty.same .num := by
    intro hne
    have hlen : 0 < rest.length := List.length_pos_iff.2 hne
    simpa [hlen] using hone
  refine .liftBind (Parses.expectEnd (Q := fun _ s => (∀ x, v = some x → x.name ∈ declared') ∧
    LineDone d σ n rows (before ++ arguments level (first :: rest)) c s) ?_) fun _ => ?_
  · rintro s ⟨⟨hplain, hv⟩, hon⟩ hend
    obtain ⟨hnil, -⟩ | hon := hon
    · cases hnil
    · have hlevel : (c.enter .args .argument).exprLevel = level := by subst hc; rfl
      refine ⟨hv, by subst hc; exact hplain, hend, _, .arguments _ (by subst hc; rfl) .argument, rfl, ?_⟩
      exact hlevel ▸ hon
  refine .liftBind (rangeOf_writes first rest token hrest) fun r => .pure ?_
  rintro s ⟨range, hr, ⟨hv, hdone⟩, hlayout⟩
  refine ⟨declared', range, hr, hv, ?_⟩
  subst hc hbefore
  simpa [hlayout, ← loopWords_append] using hdone

section
variable {block : Blocks} (hknows : d.Knows) (hsp : σ.headD false = false) (hblock : BlocksWrite d σ block)

include hsp hblock in
theorem eachEnd_writes (hbody : inBody → level ≠ 0) (token : Token) (head : EachHead) (var : Option Var) :
    Parses (LineDone d σ n rows words (.opening level inBody declared)) (eachEnd block token head var).run fun r s =>
      ∃ comment body, r = head.range.map (fun range => Stmt.each token comment var range body) ∧
      Lines d σ n level inBody
        (rows ++ ⟨words ++ trailing comment ++ [newline], .inner⟩ :: blockRows level (plainKind level) body) s := by
  refine .toNextLineOf fun comment => Parses.liftBind ((hblock [.end, .eof] n level inBody
    (rows ++ [⟨words ++ trailing comment ++ [newline], .inner⟩])).conseq (fun _ => id) fun _ _ => id) fun body => ?_
  refine Parses.liftBind (Parses.closeScope fun s hs => hs.2.withScopes (Scopes.names_tail _)) fun _ =>
    Parses.liftBind (blockEnd_writes level inBody hsp) fun endComment => ?_
  obtain ⟨hlast, hkind⟩ := endKind_eq hbody
  have hdone (s : State) (hs : Lines d σ n level (inBody && level != 0) (rows ++
      [⟨words ++ trailing comment ++ [newline], .inner⟩] ++ stmtsRows (level + 1) body.stmts ++
        [row level (sign .end :: trailing endComment) (endKind level inBody)]) s) : Lines d σ n level inBody
          (rows ++ ⟨words ++ trailing comment ++ [newline], .inner⟩ ::
            blockRows level (plainKind level) (body.withComment endComment)) s := by
    rw [hlast, hkind] at hs
    simpa using hs.block _ _
  cases head.range with
  | none => exact .pure fun s hs => ⟨comment, body.withComment endComment, rfl, hdone s hs⟩
  | some range => exact .pure fun s hs => ⟨comment, _, rfl, hdone s hs⟩

include hknows hsp hblock in
theorem eachBody_writes (hbody : inBody → level ≠ 0) (token : Token) :
    Gets (fun s => LineStart d σ n level inBody rows declared s ∧ s.cur.kind = .for) (eachBody block token)
      (Adds d σ (n + 1) level inBody rows) := by
  refine .moveTo (Q := fun s => Plain d declared ∧ On d σ (n + 1) (⟨rows, indent level ++ [sign .for],
    (Scribe.opening level inBody declared).goTo .loopVar⟩ : Page) s) State.moves_advance ?_ ?_
  · rintro s ⟨hs, hk⟩
    exact ⟨hs.1, hs.step hk ⟨nofun, nofun⟩ rfl nofun⟩
  refine Gets.bind (eachHead_writes hknows) fun head => ?_
  obtain ⟨v, hv⟩ : ∃ v, v = head.var.map fun v => { v with ty := head.ty } := ⟨_, rfl⟩
  have hname (x : Var) (hx : v = some x) : ∃ y, head.var = some y ∧ x.name = y.name := by
    obtain ⟨y, hy, rfl⟩ := Option.map_eq_some_iff.1 (hv.symm.trans hx)
    exact ⟨y, hy, rfl⟩
  have hsame : Layout.loopVar head.var = Layout.loopVar v := by
    rw [hv]
    cases head.var <;> rfl
  dsimp only
  rw [← hv, hsame]
  refine (Parses.choose fun (r : List String × Range) => ?_).conseq (P := fun s => ∃ r : List String × Range,
    head.range = some r.2 ∧ (∀ x, head.var = some x → x.name ∈ r.1) ∧ LineDone d σ (n + 1) rows
      (indent level ++ [sign .for] ++ space :: Layout.loopVar v ++ sign .range :: Layout.range level r.2)
        (.opening level inBody r.1) s) (fun s ⟨declared', range, hs⟩ => ⟨(declared', range), hs⟩) fun _ _ => id
  obtain ⟨declared', range⟩ := r
  have hend : Gets (fun s => head.range = some range ∧ LineDone d σ (n + 1) rows
      (indent level ++ [sign .for] ++ space :: Layout.loopVar v ++ sign .range :: Layout.range level range)
        (.opening level inBody declared') s) (eachEnd block token head v) (Adds d σ (n + 1) level inBody rows) := by
    refine (eachEnd_writes hsp hblock hbody token head v).frame.conseq (fun _ => id) ?_
    rintro r s ⟨hrange, comment, body, rfl, hs⟩
    exact ⟨_, by rw [hrange]; rfl, by simpa [Adds, stmtRows, row] using hs⟩
  cases v with
  | none => exact Gets.bind (.pure fun s hs => ⟨hs.1, hs.2.2⟩) fun _ => hend
  | some x =>
    refine .liftBind (Parses.setScopes fun s hs => ?_) fun _ => hend
    obtain ⟨y, hy, hxy⟩ := hname x rfl
    exact ⟨hs.1, hs.2.2.declare (hxy ▸ hs.2.1 y hy)⟩

include hknows hsp hblock in
theorem eachStmt_writes (hbody : inBody → level ≠ 0) :
    Gets (fun s => Lines d σ n level inBody rows s ∧ s.cur.kind = .for) (eachStmt block)
      (Adds d σ (n + 1) level inBody rows) := by
  refine Gets.line (fun s hs => by rw [hs]; nofun) fun declared => .mk <| .lookThen fun token => ?_
  refine Parses.bind (Parses.openScope (Q := fun _ s => LineStart d σ n level inBody rows declared s ∧
    s.cur.kind = .for)
    fun s hs => ⟨⟨hs.1.1.1, hs.1.1.2.withScopes hs.1.1.2.scopes⟩, hs.1.2⟩) fun _ => ?_
  refine Parses.bind (eachBody_writes hknows hsp hblock hbody token) fun r => ?_
  cases r with
  | none =>
    exact (Parses.setScopes (Q := fun _ _ => False) fun s hs => by simp at hs).bind fun _ => .pure fun _ => False.elim
  | some stmt => exact .pure fun _ => id

end

end TinyScript.Parsing
