import TinyScript.Proofs.Scribing.Scribe

/-!
# The rows of a program

The canonical layout of a program is that of its rows: blank rows are left out and added between the rows as
they are between statements.
-/

namespace TinyScript.Layout
open Word

/-! ### Rows of statements -/

/-- The kind of the last row of a statement that does not stand apart. -/
def plainKind (level : Nat) : RowKind :=
  if level = 0 then .outer else .inner

/-- The kind of the last row of a statement that stands apart. -/
def closeKind (level : Nat) : RowKind :=
  if level = 0 then .closer else .inner

/-- The kind of the last row of a statement. -/
def lastKind (level : Nat) : Stmt → RowKind
  | .empty _ none => .blank
  | .empty _ (some _) => .comment
  | .func .. | .on .. => closeKind level
  | _ => plainKind level

/-- The first row of a statement that stands apart. -/
def openKind (level : Nat) : RowKind :=
  if level = 0 then .opener else .inner

/-- A row at a level. -/
def row (level : Nat) (words : List Word) (kind : RowKind) : Row :=
  ⟨indent level ++ words ++ [newline], kind⟩

mutual

/-- The rows of a statement at a level. -/
def stmtRows (level : Nat) : Stmt → List Row
  | .empty _ none => [blankRow]
  | .cond _ comment first more otherwise =>
    branchRows level [sign .if, space] first ++ moreRows level more ++ lastRows level otherwise
      ++ [row level (sign .end :: trailing comment) (plainKind level)]
  | .loop _ (.mk _ comment condition body) =>
    row level (sign .while :: space :: expr level condition ++ trailing comment) .inner
      :: blockRows level (plainKind level) body
  | .each _ comment v r body =>
    row level (sign .for :: space :: loopVar v ++ sign .range :: range level r ++ trailing comment) .inner
      :: blockRows level (plainKind level) body
  | .func _ comment sig body =>
    row level (funcHead sig ++ trailing comment) (openKind level)
      :: blockRows level (closeKind level) body
  | .on _ comment name vs body =>
    row level (sign .on :: space :: ident name :: params vs ++ trailing comment) (openKind level)
      :: blockRows level (closeKind level) body
  | s => [row level (stmt level s) (lastKind level s)]

def branchRows (level : Nat) (lead : List Word) : Branch → List Row
  | .mk _ comment condition (.mk _ _ ss) =>
    row level (lead ++ expr level condition ++ trailing comment) .inner :: stmtsRows (level + 1) ss

def moreRows (level : Nat) : List Branch → List Row
  | [] => []
  | b :: bs => branchRows level [sign .else, space, sign .if, space] b ++ moreRows level bs

def lastRows (level : Nat) : Option Block → List Row
  | none => []
  | some (.mk _ comment ss) => row level (sign .else :: trailing comment) .inner :: stmtsRows (level + 1) ss

/-- The rows of a block at a level, the last of which is of the given kind. -/
def blockRows (level : Nat) (kind : RowKind) : Block → List Row
  | .mk _ comment ss => stmtsRows (level + 1) ss ++ [row level (sign .end :: trailing comment) kind]

def stmtsRows (level : Nat) : List Stmt → List Row
  | [] => []
  | s :: ss => stmtRows level s ++ stmtsRows level ss

end

/-! ### Their layout -/

@[simp] theorem rowWords_nil : rowWords [] = [] := rfl

@[simp] theorem rowWords_cons (r : Row) (rows : List Row) : rowWords (r :: rows) = r.words ++ rowWords rows := rfl

@[simp] theorem rowWords_append (rows rows' : List Row) : rowWords (rows ++ rows') = rowWords rows ++ rowWords rows' :=
  List.flatMap_append

/-- What is added after a row. -/
def gapRows (kind : RowKind) (rest : List Row) : List Row :=
  if rowGap ⟨[], kind⟩ rest then [blankRow] else []

theorem gapRows_inner (rest : List Row) : gapRows .inner rest = [] := rfl

theorem gapRows_openKind (level : Nat) (rest : List Row) : gapRows (openKind level) rest = [] := by
  unfold openKind
  split <;> rfl

/-- The words of rows in their layout. -/
def tidyWords (afterBlank : Bool) (rows : List Row) : List Word :=
  rowWords (tidy afterBlank rows)

theorem tidyWords_row (afterBlank : Bool) (r : Row) (rest : List Row) (h : r.kind ≠ .blank) :
    tidyWords afterBlank (r :: rest) = r.words ++ rowWords (gapRows r.kind rest) ++ tidyWords false rest := by
  rw [tidyWords, tidy, if_neg h, rowWords_cons, rowWords_append, List.append_assoc]
  rfl

/-- Whether the first row is not left out, whatever comes before. -/
def Stays (rows : List Row) : Prop :=
  ∀ afterBlank, tidyWords afterBlank rows = tidyWords false rows

theorem stays_row (r : Row) (rest : List Row) (h : r.kind ≠ .blank) : Stays (r :: rest) := by
  intro afterBlank
  rw [tidyWords_row _ r rest h, tidyWords_row _ r rest h]

theorem plainKind_ne (level : Nat) : plainKind level ≠ .blank := by
  unfold plainKind
  split <;> simp

theorem openKind_ne (level : Nat) : openKind level ≠ .blank := by
  unfold openKind
  split <;> simp

theorem closeKind_ne (level : Nat) : closeKind level ≠ .blank := by
  unfold closeKind
  split <;> simp

theorem lastKind_ne (level : Nat) {s : Stmt} (h : isBlank s = false) : lastKind level s ≠ .blank := by
  cases s with
  | empty _ comment =>
    cases comment with
    | none => cases h
    | some => nofun
  | func | on => exact closeKind_ne level
  | _ => exact plainKind_ne level

theorem gapRows_lastKind (level : Nat) (s : Stmt) (rest : List Row) (h : isBlank s = false) :
    gapRows (lastKind (level + 1) s) rest = [] := by
  cases s with
  | empty _ comment =>
    cases comment with
    | none => cases h
    | some => rfl
  | _ => rfl

/-- A row with what is added after it. -/
theorem tidyWords_kind (afterBlank : Bool) (level : Nat) (words : List Word) {kind : RowKind} (rest : List Row)
    (h : kind ≠ .blank) : tidyWords afterBlank (row level words kind :: rest) =
      indent level ++ words ++ newline :: (rowWords (gapRows kind rest) ++ tidyWords false rest) := by
  rw [tidyWords_row afterBlank _ rest h]
  simp [row]

theorem tidyWords_inner (afterBlank : Bool) (level : Nat) (words : List Word) (rest : List Row) :
    tidyWords afterBlank (row level words .inner :: rest) =
      indent level ++ words ++ newline :: tidyWords false rest := by
  rw [tidyWords_kind afterBlank level words rest (by simp), gapRows_inner, rowWords_nil, List.nil_append]

theorem stays_more (level : Nat) (bs : List Branch) {rest : List Row} (h : Stays rest) :
    Stays (moreRows level bs ++ rest) := by
  match bs with
  | [] => exact h
  | .mk _ _ _ (.mk _ _ _) :: _ => exact stays_row _ _ (by simp [row])

theorem stays_last (level : Nat) (otherwise : Option Block) {rest : List Row} (h : Stays rest) :
    Stays (lastRows level otherwise ++ rest) := by
  match otherwise with
  | none => exact h
  | some (.mk _ _ _) => exact stays_row _ _ (by simp [row])

mutual

/-- A statement is laid out by its rows, and what is added after it is added after its last row. -/
theorem tidyWords_stmt (afterBlank : Bool) (level : Nat) (s : Stmt) (rest : List Row) (h : isBlank s = false) :
    tidyWords afterBlank (stmtRows level s ++ rest) = indent level ++ stmt level s
      ++ newline :: (rowWords (gapRows (lastKind level s) rest) ++ tidyWords false rest) := by
  match s with
  | .empty _ none => cases h
  | .cond _ comment first more otherwise =>
    have hlast := stays_row (row level (sign .end :: trailing comment) (plainKind level)) rest (plainKind_ne level)
    simp only [stmtRows, stmt, List.append_assoc, List.singleton_append]
    rw [tidyWords_branch _ _ _ _ _ (stays_more level more (stays_last level otherwise hlast)),
      tidyWords_more _ _ _ (stays_last level otherwise hlast), tidyWords_last _ _ _ hlast,
      tidyWords_kind false level _ rest (plainKind_ne level)]
    simp [lastKind]
  | .loop _ (.mk _ comment condition body) =>
    simp only [stmtRows, stmt, List.cons_append]
    rw [tidyWords_inner, tidyWords_block level _ body rest (plainKind_ne level)]
    simp [lastKind]
  | .each _ comment v r body =>
    simp only [stmtRows, stmt, List.cons_append]
    rw [tidyWords_inner, tidyWords_block level _ body rest (plainKind_ne level)]
    simp [lastKind]
  | .func _ comment sig body =>
    simp only [stmtRows, stmt, List.cons_append]
    rw [tidyWords_kind afterBlank level _ _ (openKind_ne level), gapRows_openKind,
      tidyWords_block level _ body rest (closeKind_ne level)]
    simp [lastKind]
  | .on _ comment name vs body =>
    simp only [stmtRows, stmt, List.cons_append]
    rw [tidyWords_kind afterBlank level _ _ (openKind_ne level), gapRows_openKind,
      tidyWords_block level _ body rest (closeKind_ne level)]
    simp [lastKind]
  | .empty tok (some comment) =>
    exact tidyWords_kind afterBlank level (stmt level (.empty tok (some comment))) rest (lastKind_ne level h)
  | .typedDecl .. | .inferredDecl .. | .assign .. | .call .. | .ret .. | .brk .. =>
    exact tidyWords_kind afterBlank level (stmt level _) rest (plainKind_ne level)

theorem tidyWords_branch (afterBlank : Bool) (level : Nat) (lead : List Word) (b : Branch) (rest : List Row)
    (h : Stays rest) : tidyWords afterBlank (branchRows level lead b ++ rest) =
      indent level ++ lead ++ branch level b ++ tidyWords false rest := by
  match b with
  | .mk _ comment condition (.mk _ _ ss) =>
    rw [branchRows, branch, List.cons_append, tidyWords_inner, tidyWords_stmts _ _ _ _ h]
    simp

theorem tidyWords_more (level : Nat) (bs : List Branch) (rest : List Row) (h : Stays rest) :
    tidyWords false (moreRows level bs ++ rest) = moreBranches level bs ++ tidyWords false rest := by
  match bs with
  | [] => rfl
  | b :: bs =>
    rw [moreRows, moreBranches, List.append_assoc, tidyWords_branch _ _ _ _ _ (stays_more level bs h),
      tidyWords_more level bs rest h]
    simp

theorem tidyWords_last (level : Nat) (otherwise : Option Block) (rest : List Row) (h : Stays rest) :
    tidyWords false (lastRows level otherwise ++ rest) = lastBranch level otherwise ++ tidyWords false rest := by
  match otherwise with
  | none => rfl
  | some (.mk _ comment ss) =>
    rw [lastRows, lastBranch, List.cons_append, tidyWords_inner, tidyWords_stmts _ _ _ _ h]
    simp

theorem tidyWords_block (level : Nat) (kind : RowKind) (body : Block) (rest : List Row) (h : kind ≠ .blank) :
    tidyWords false (blockRows level kind body ++ rest) = block level body
      ++ newline :: (rowWords (gapRows kind rest) ++ tidyWords false rest) := by
  match body with
  | .mk _ comment ss =>
    rw [blockRows, block, List.append_assoc, List.singleton_append, tidyWords_stmts _ _ _ _ (stays_row _ _ h),
      tidyWords_kind _ _ _ _ h]
    simp

theorem tidyWords_stmts (afterBlank : Bool) (level : Nat) (ss : List Stmt) (rest : List Row) (h : Stays rest) :
    tidyWords afterBlank (stmtsRows (level + 1) ss ++ rest) =
      lines afterBlank (stmts (level + 1) ss) ++ tidyWords false rest := by
  match ss with
  | [] => exact h afterBlank
  | s :: ss =>
    rw [stmtsRows, stmts, lines, List.append_assoc]
    cases hblank : isBlank s with
    | true =>
      obtain ⟨tok, rfl⟩ : ∃ tok, s = .empty tok none := by
        unfold isBlank at hblank
        split at hblank
        · exact ⟨_, rfl⟩
        · cases hblank
      have htidy : tidyWords afterBlank (blankRow :: (stmtsRows (level + 1) ss ++ rest)) =
          if afterBlank then tidyWords true (stmtsRows (level + 1) ss ++ rest)
          else newline :: tidyWords true (stmtsRows (level + 1) ss ++ rest) := by
        cases afterBlank <;> rfl
      rw [stmtRows, List.singleton_append, htidy, tidyWords_stmts _ _ _ _ h, if_pos rfl]
      split <;> rfl
    | false =>
      rw [tidyWords_stmt _ _ _ _ hblank, gapRows_lastKind _ _ _ hblank, tidyWords_stmts _ _ _ _ h]
      simp

end

/-! ### Programs -/

/-- The first row of a statement of the program. -/
def firstKind : Stmt → RowKind
  | .empty _ none => .blank
  | .empty _ (some _) => .comment
  | .func .. | .on .. => .opener
  | .cond .. | .loop .. | .each .. => .inner
  | _ => .outer

theorem stmtRows_eq (s : Stmt) : ∃ r rows, stmtRows 0 s = r :: rows ∧ r.kind = firstKind s := by
  match s with
  | .empty _ none | .empty _ (some _) | .cond _ _ (.mk _ _ _ (.mk _ _ _)) _ _ | .loop _ (.mk _ _ _ _) | .each ..
  | .func .. | .on .. | .typedDecl .. | .inferredDecl .. | .assign .. | .call .. | .ret .. | .brk .. =>
    exact ⟨_, _, rfl, rfl⟩

theorem leadsToOpener_stmtsRows (ss : List Stmt) : leadsToOpener (stmtsRows 0 ss) = leadsApart ss := by
  induction ss with
  | nil => rfl
  | cons s ss ih =>
    match s with
    | .empty tok (some comment) =>
      show (false || (true && leadsToOpener (stmtsRows 0 ss))) = (false || (true && leadsApart ss))
      rw [ih]
    | .func .. | .on .. => rfl
    | .empty _ none | .cond _ _ (.mk _ _ _ (.mk _ _ _)) _ _ | .loop _ (.mk _ _ _ _) | .each .. | .typedDecl ..
    | .inferredDecl .. | .assign .. | .call .. | .ret .. | .brk .. => rfl

theorem isBlank_head (ss : List Stmt) :
    (stmtsRows 0 ss).head?.map (·.kind == .blank) = ss.head?.map isBlank := by
  cases ss with
  | nil => rfl
  | cons s ss =>
    obtain ⟨r, rows, hrows, hkind⟩ := stmtRows_eq s
    rw [stmtsRows, hrows]
    show some (r.kind == .blank) = some (isBlank s)
    rw [hkind]
    match s with
    | .empty _ none | .empty _ (some _) | .cond .. | .loop .. | .each .. | .func .. | .on .. | .typedDecl ..
    | .inferredDecl .. | .assign .. | .call .. | .ret .. | .brk .. => rfl

/-- A row is added after a statement where a line is. -/
theorem gapRows_stmt (s : Stmt) (ss : List Stmt) (h : isBlank s = false) :
    gapRows (lastKind 0 s) (stmtsRows 0 ss) = if gapAfter s ss then [blankRow] else [] := by
  have hgap : rowGap ⟨[], lastKind 0 s⟩ (stmtsRows 0 ss) = gapAfter s ss := by
    rw [rowGap, gapAfter, isBlank_head, leadsToOpener_stmtsRows, h]
    match s with
    | .empty _ none => cases h
    | .func .. | .on .. =>
      cases ss with
      | nil => rfl
      | cons s' ss =>
        match s' with
        | .empty _ none | .empty _ (some _) | .cond .. | .loop .. | .each .. | .func .. | .on .. | .typedDecl ..
        | .inferredDecl .. | .assign .. | .call .. | .ret .. | .brk .. =>
          simp [lastKind, closeKind, isBlank, standsApart, isComment, leadsApart]
    | .empty _ (some _) | .cond .. | .loop .. | .each .. | .typedDecl ..
    | .inferredDecl .. | .assign .. | .call .. | .ret .. | .brk .. => rfl
  rw [gapRows, hgap]

theorem tidyWords_topStmts (afterBlank : Bool) (ss : List Stmt) :
    tidyWords afterBlank (stmtsRows 0 ss) = lines afterBlank (topLines ss) := by
  induction ss generalizing afterBlank with
  | nil => rfl
  | cons s ss ih =>
    rw [stmtsRows, topLines, lines]
    cases hblank : isBlank s with
    | true =>
      obtain ⟨tok, rfl⟩ : ∃ tok, s = .empty tok none := by
        unfold isBlank at hblank
        split at hblank
        · exact ⟨_, rfl⟩
        · cases hblank
      rw [if_pos rfl, ← ih]
      cases afterBlank <;> rfl
    | false =>
      rw [tidyWords_stmt _ _ _ _ hblank, gapRows_stmt s ss hblank, ih]
      split <;> simp [indent, blankRow]

/-- A program is laid out by its rows. -/
theorem programWords_stmtsRows (p : Program) : programWords (stmtsRows 0 p.stmts) = program p := by
  unfold programWords program
  cases hss : p.stmts with
  | nil => rfl
  | cons s ss =>
    obtain ⟨r, rows, hrows, -⟩ := stmtRows_eq s
    have hempty : (stmtsRows 0 (s :: ss)).isEmpty = false := by rw [stmtsRows, hrows]; rfl
    rw [hempty]
    exact tidyWords_topStmts false (s :: ss)

/-! ### Rows in their layout -/

theorem head_tidy (rows : List Row) : (tidy false rows).head? = rows.head? := by
  cases rows with
  | nil => rfl
  | cons r rest =>
    rw [tidy]
    split <;> rfl

theorem leadsToOpener_tidy (rows : List Row) : leadsToOpener (tidy false rows) = leadsToOpener rows := by
  induction rows with
  | nil => rfl
  | cons r rest ih =>
    rw [tidy]
    have hblank : (RowKind.blank == RowKind.opener) = false ∧ (RowKind.blank == RowKind.comment) = false := ⟨rfl, rfl⟩
    split
    · next hk => simp [leadsToOpener, hk, hblank]
    · by_cases hcomment : r.kind = .comment
      · have hgap : rowGap r rest = false := by simp [rowGap, hcomment]
        simp [hgap, leadsToOpener, ih]
      · have hcomment : (r.kind == .comment) = false := beq_eq_false_iff_ne.2 hcomment
        simp [leadsToOpener, hcomment]

/-- A row is only added before one that holds something. -/
theorem tidy_of_rowGap {r : Row} {rest : List Row} (h : rowGap r rest) (afterBlank : Bool) :
    tidy afterBlank rest = tidy false rest := by
  cases rest with
  | nil => rfl
  | cons r' rest =>
    have hk : r'.kind ≠ .blank := by
      intro hk
      have hblank : leadsToOpener (r' :: rest) = false := by rw [leadsToOpener, hk]; rfl
      rw [rowGap, hblank] at h
      simp [hk] at h
    rw [tidy, if_neg hk, tidy, if_neg hk]

/-- Between rows in their layout nothing is added. -/
theorem rowGap_tidy (r : Row) (rest : List Row) :
    rowGap r ((if rowGap r rest then [blankRow] else []) ++ tidy false rest) = false := by
  cases h : rowGap r rest with
  | true => simp [rowGap, blankRow, leadsToOpener]
  | false =>
    have hsame : rowGap r (tidy false rest) = rowGap r rest := by
      rw [rowGap, rowGap, head_tidy, leadsToOpener_tidy]
    simpa [hsame] using h

/-- Rows in their layout stay as they are. -/
theorem tidy_tidy (afterBlank : Bool) (rows : List Row) :
    tidy afterBlank (tidy afterBlank rows) = tidy afterBlank rows := by
  induction rows generalizing afterBlank with
  | nil => rfl
  | cons r rest ih =>
    by_cases hk : r.kind = .blank
    · cases afterBlank with
      | true =>
        rw [tidy, if_pos hk, if_pos rfl]
        exact ih true
      | false =>
        rw [tidy, if_pos hk, if_neg Bool.false_ne_true, tidy, if_pos hk, if_neg Bool.false_ne_true, ih]
    · have hgap := rowGap_tidy r rest
      rw [tidy, if_neg hk, tidy, if_neg hk, hgap]
      cases h : rowGap r rest with
      | true =>
        rw [if_pos rfl, if_neg Bool.false_ne_true, List.singleton_append, ← tidy_of_rowGap h true, List.nil_append]
        exact congrArg (r :: blankRow :: ·) (ih true)
      | false => simp [ih]

end TinyScript.Layout
