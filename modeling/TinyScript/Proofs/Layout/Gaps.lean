import Mathlib.Data.List.DropRight
import TinyScript.Proofs.Layout.Statements

/-!
# Blank lines at the top of a program

A blank line is added where a function or a handler needs one, but only where none is already, so that
programs keep at most one in a row (`program_spaced`). Above every function and handler, with the comments
that lead up to it, is a blank line or the start of the text, and below it a blank line or the end
(`Program.format_apart`), whatever the program holds besides.
-/

namespace TinyScript
open Layout Word

namespace Layout

/-! ### Gaps -/

theorem gapAfter_nil (s : Stmt) : gapAfter s [] = false := by
  simp [gapAfter, leadsApart]

/-- A gap is followed by a line that is not blank. -/
theorem isBlank_of_gapAfter {s t : Stmt} {rest : List Stmt} (h : gapAfter s (t :: rest) = true) :
    isBlank t = false := by
  have hlead (hlead : leadsApart (t :: rest) = true) : isBlank t = false := by
    cases t with
    | empty token comment =>
      cases comment with
      | none => simp [leadsApart, standsApart, isComment] at hlead
      | some text => rfl
    | _ => rfl
  rw [gapAfter, Bool.or_eq_true, Bool.and_eq_true, Bool.and_eq_true] at h
  rcases h with ⟨-, hnext⟩ | ⟨-, hnext⟩
  · simpa using hnext
  · exact hlead hnext

theorem gapAfter_comment {s : Stmt} (h : isComment s = true) (rest : List Stmt) : gapAfter s rest = false := by
  cases s with
  | empty token comment =>
    have hapart : standsApart (.empty token comment) = false := rfl
    simp [gapAfter, hapart, h]
  | _ => cases h

theorem isBlank_of_isComment {s : Stmt} (h : isComment s = true) : isBlank s = false := by
  cases s with
  | empty token comment =>
    cases comment with
    | none => cases h
    | some text => rfl
  | _ => cases h

theorem isBlank_of_standsApart {s : Stmt} (h : standsApart s = true) : isBlank s = false := by
  cases s <;> first | rfl | cases h

theorem leadsApart_of_comments {comments after : List Stmt} {decl : Stmt} (hdecl : standsApart decl = true)
    (h : ∀ c ∈ comments, isComment c = true) : leadsApart (comments ++ decl :: after) = true := by
  induction comments with
  | nil => simp [leadsApart, hdecl]
  | cons c comments ih =>
    obtain ⟨hc, hcomments⟩ := List.forall_mem_cons.1 h
    simp [leadsApart, hc, ih hcomments]

/-! ### At most one blank line in a row -/

theorem topLines_spaced {ss : List Stmt} (h : ∀ s ∈ ss, s.Neat) : LinesSpaced (topLines ss) := by
  induction ss with
  | nil => trivial
  | cons s ss ih =>
    obtain ⟨hs, hss⟩ := List.forall_mem_cons.1 h
    refine ⟨?_, ih hss⟩
    rcases hs.lines with hblank | hsolid
    · exact .inl hblank
    by_cases hgap : gapAfter s ss = true
    · refine .inr (.inr ⟨stmt 0 s, ?_, hsolid 0, ?_⟩)
      · show (stmt 0 s ++ if gapAfter s ss then [newline] else []) = _
        rw [if_pos hgap]
      · cases ss with
        | nil =>
          rw [gapAfter_nil] at hgap
          cases hgap
        | cons t ss =>
          show some (isBlank t) = some false
          rw [isBlank_of_gapAfter hgap]
    · refine .inr (.inl ?_)
      show Solid (stmt 0 s ++ if gapAfter s ss then [newline] else [])
      rw [if_neg hgap]
      exact (hsolid 0).append .nil

/-- The text of a program has at most one blank line in a row, and does not start with two. -/
theorem program_spaced {p : Program} (h : ∀ s ∈ p.stmts, s.Neat) : ∃ m, Spaced 1 (program p) m := by
  unfold program
  split
  · exact ⟨2, Spaced.newline Nat.one_lt_two⟩
  · exact lines_spaced (topLines_spaced h) false (by omega) fun _ _ => Nat.one_lt_two

/-! ### Lines from above to below -/

/-- A blank line comes before what follows, or the start of the text. -/
def BlankAbove (text : List Char) : Prop :=
  text = [] ∨ text = ['\n'] ∨ ['\n', '\n'] <:+ text

/-- A blank line comes after what stands before, or the end of the text. -/
def BlankBelow (text : List Char) : Prop :=
  text = [] ∨ ['\n'] <+: text

/-- A text that ends with its last line, which is blank if so marked. -/
structure Ended (afterBlank : Bool) (text : List Char) : Prop where
  newline : text = [] ∨ ['\n'] <:+ text
  blank : afterBlank = true → BlankAbove text

/-- The line is blank, or a blank one comes after it. -/
def LeavesBlank (line : Bool × List Word) : Prop :=
  line.1 = true ∨ ∃ ws, line.2 = ws ++ [Word.newline]

theorem Ended.start : Ended false [] :=
  ⟨.inl rfl, nofun⟩

theorem blankAbove_newline {text : List Char} (h : text = [] ∨ ['\n'] <:+ text) : BlankAbove (text ++ ['\n']) := by
  rcases h with rfl | ⟨front, rfl⟩
  · exact .inr (.inl rfl)
  · exact .inr (.inr ⟨front, by simp⟩)

theorem toList_join_newline (ws : List Word) : (join (ws ++ [newline])).toList = (join ws).toList ++ ['\n'] := by
  rw [toList_join_append]
  rfl

theorem toList_join_cons_newline (ws : List Word) : (join (newline :: ws)).toList = '\n' :: (join ws).toList :=
  toList_join_append [newline] ws

/-- What is written below `text` leaves a blank line above what follows, if its last line does. -/
theorem lines_blankAbove {entries : List (Bool × List Word)} {afterBlank : Bool} {text : List Char}
    (htext : Ended afterBlank text) (hlast : ∀ line, entries.getLast? = some line → LeavesBlank line)
    (hnil : entries = [] → BlankAbove text) :
    BlankAbove (text ++ (join (lines afterBlank entries)).toList) := by
  induction entries generalizing afterBlank text with
  | nil => simpa [lines, toList_join] using hnil rfl
  | cons line rest ih =>
    obtain ⟨empty, ws⟩ := line
    have hrest : ∀ line, rest.getLast? = some line → LeavesBlank line := by
      intro line hline
      refine hlast line ?_
      rw [List.getLast?_cons, hline]
      rfl
    cases empty with
    | true =>
      cases afterBlank with
      | true => exact ih htext hrest fun _ => htext.blank rfl
      | false =>
        have habove := blankAbove_newline htext.newline
        have hended : Ended true (text ++ ['\n']) := ⟨.inr ⟨text, rfl⟩, fun _ => habove⟩
        have hnext := ih hended hrest fun _ => habove
        rw [lines_firstBlank, toList_join_cons_newline, List.append_cons]
        exact hnext
    | false =>
      have hended : Ended false (text ++ (join (ws ++ [newline])).toList) := by
        refine ⟨.inr ⟨text ++ (join ws).toList, ?_⟩, nofun⟩
        rw [toList_join_newline, List.append_assoc]
      have hnext := ih hended hrest fun hnil => ?_
      · have hsplit : ws ++ newline :: lines false rest = (ws ++ [newline]) ++ lines false rest := by simp
        rw [lines_words, hsplit, toList_join_append, ← List.append_assoc]
        exact hnext
      · subst hnil
        rcases hlast _ rfl with hblank | ⟨ws, rfl⟩
        · cases hblank
        · rw [toList_join_newline, toList_join_newline, List.append_assoc]
          exact .inr (.inr ⟨text ++ (join ws).toList, by simp⟩)

/-! ### Parts of a program -/

/-- The lines of statements that `rest` follows. -/
def linesBefore (rest : List Stmt) : List Stmt → List (Bool × List Word)
  | [] => []
  | s :: ss =>
    (isBlank s, stmt 0 s ++ (if gapAfter s (ss ++ rest) then [newline] else [])) :: linesBefore rest ss

/-- The text of statements at the top that `rest` follows. -/
def textBefore (before rest : List Stmt) : List Char :=
  (join (lines false (linesBefore rest before))).toList

/-- The text of comment lines. -/
def commentText (comments : List Stmt) : List Char :=
  (join (comments.flatMap fun c => stmt 0 c ++ [newline])).toList

theorem topLines_append (before rest : List Stmt) :
    topLines (before ++ rest) = linesBefore rest before ++ topLines rest := by
  induction before with
  | nil => rfl
  | cons s before ih => rw [List.cons_append, topLines, ih, linesBefore, List.cons_append]

theorem lines_append (afterBlank : Bool) (entries more : List (Bool × List Word)) :
    ∃ b, lines afterBlank (entries ++ more) = lines afterBlank entries ++ lines b more := by
  induction entries generalizing afterBlank with
  | nil => exact ⟨afterBlank, rfl⟩
  | cons line rest ih =>
    obtain ⟨empty, ws⟩ := line
    rw [List.cons_append, lines, lines]
    cases empty with
    | true =>
      obtain ⟨b, hb⟩ := ih true
      refine ⟨b, ?_⟩
      cases afterBlank <;> simp [hb]
    | false =>
      obtain ⟨b, hb⟩ := ih false
      exact ⟨b, by simp [hb]⟩

/-- A declaration and its comments are written the same whether a blank line comes before. -/
theorem lines_declaration {comments after : List Stmt} {decl : Stmt} (hdecl : standsApart decl = true)
    (h : ∀ c ∈ comments, isComment c = true) (b : Bool) :
    lines b (topLines (comments ++ decl :: after)) = (comments.flatMap fun c => stmt 0 c ++ [newline]) ++
      (stmt 0 decl ++ (if gapAfter decl after then [newline] else []) ++ newline :: lines false (topLines after)) := by
  induction comments generalizing b with
  | nil =>
    rw [List.nil_append, topLines, lines, isBlank_of_standsApart hdecl]
    rfl
  | cons c comments ih =>
    obtain ⟨hc, hcomments⟩ := List.forall_mem_cons.1 h
    rw [List.cons_append, topLines, lines, isBlank_of_isComment hc, gapAfter_comment hc]
    simp [ih hcomments]

/-- The text of a program up to a declaration, the declaration with its comments, and what is below it. -/
theorem toList_format_declaration {p : Program} {before comments after : List Stmt} {decl : Stmt}
    (hp : p.stmts = before ++ (comments ++ decl :: after)) (hdecl : standsApart decl = true)
    (hcomments : ∀ c ∈ comments, isComment c = true) :
    p.format.toList = textBefore before (comments ++ decl :: after) ++
      (commentText comments ++ (join (stmt 0 decl)).toList) ++
      '\n' :: (join ((if gapAfter decl after then [newline] else []) ++ lines false (topLines after))).toList := by
  have hprogram : program p = lines false (topLines p.stmts) := by
    unfold program
    rw [if_neg (by simp [hp])]
  have hend (rest : List Word) : (join (stmt 0 decl ++ (if gapAfter decl after then [newline] else []) ++
      newline :: rest)).toList = (join (stmt 0 decl)).toList ++
        '\n' :: (join ((if gapAfter decl after then [newline] else []) ++ rest)).toList := by
    split <;> simp [toList_join_append, toList_join_cons_newline]
  obtain ⟨b, hb⟩ := lines_append false (linesBefore (comments ++ decl :: after) before)
    (topLines (comments ++ decl :: after))
  rw [Program.format, hprogram, hp, topLines_append, hb, lines_declaration hdecl hcomments b, toList_join_append,
    toList_join_append, hend]
  simp [textBefore, commentText]

/-- What comes below a declaration starts with a blank line, if there is more. -/
theorem blankBelow_declaration {decl : Stmt} (hdecl : standsApart decl = true) (after : List Stmt) :
    BlankBelow (join ((if gapAfter decl after then [newline] else []) ++ lines false (topLines after))).toList := by
  cases after with
  | nil =>
    rw [gapAfter_nil]
    exact .inl rfl
  | cons s after =>
    refine .inr ?_
    cases hblank : isBlank s with
    | true =>
      have hgap : gapAfter decl (s :: after) = false := by
        cases hgap : gapAfter decl (s :: after) with
        | false => rfl
        | true =>
          rw [isBlank_of_gapAfter hgap] at hblank
          cases hblank
      rw [hgap, topLines, lines, hblank]
      exact ⟨_, (toList_join_append [newline] _).symm⟩
    | false =>
      have hgap : gapAfter decl (s :: after) = true := by simp [gapAfter, hdecl, hblank]
      rw [hgap]
      exact ⟨_, (toList_join_append [newline] _).symm⟩

/-- Above a declaration and its comments, the last line is blank, or leaves a blank one. -/
theorem blankAbove_textBefore {before rest : List Stmt} (hrest : leadsApart rest = true)
    (hlast : ∀ s, before.getLast? = some s → isComment s = false) : BlankAbove (textBefore before rest) := by
  have hlines : ∀ line, (linesBefore rest before).getLast? = some line → LeavesBlank line := by
    intro line hline
    induction before with
    | nil => cases hline
    | cons s before ih =>
      cases before with
      | nil =>
        cases hline
        have hcomment := hlast s rfl
        by_cases hblank : isBlank s = true
        · exact .inl hblank
        · refine .inr ⟨stmt 0 s, ?_⟩
          show (stmt 0 s ++ if gapAfter s ([] ++ rest) then [newline] else []) = _
          rw [List.nil_append, if_pos (by simp [gapAfter, hblank, hcomment, hrest])]
      | cons t before => exact ih (fun s hs => hlast s hs) hline
  exact lines_blankAbove Ended.start hlines fun _ => .inl rfl

/-- Lines that are written below the end of a line end with one. -/
theorem lines_endLine (afterBlank : Bool) (entries : List (Bool × List Word)) {front : List Word}
    (hfront : ['\n'] <:+ (join front).toList) : ['\n'] <:+ (join (front ++ lines afterBlank entries)).toList := by
  have hended (ws : List Word) : ['\n'] <:+ (join (ws ++ [newline])).toList :=
    ⟨(join ws).toList, (toList_join_newline ws).symm⟩
  induction entries generalizing afterBlank front with
  | nil => simpa [lines] using hfront
  | cons line rest ih =>
    obtain ⟨empty, ws⟩ := line
    rw [lines]
    cases empty with
    | true =>
      cases afterBlank with
      | true => exact ih true hfront
      | false => simpa using ih true (hended front)
    | false => simpa using ih false (hended (front ++ ws))

/-- The text ends with a line. -/
def LastLine (text line : List Char) : Prop :=
  ∃ above, text = above ++ line ∧ ['\n'] <:+ above ∧ '\n' ∉ line

theorem newline_not_mem_closing {comment : Option String} (h : Noted comment) :
    '\n' ∉ (join (sign .end :: trailing comment)).toList := by
  have hend : '\n' ∉ (sign .end).text.toList := by decide
  cases comment with
  | none => simpa [toList_join, trailing] using hend
  | some text => simpa [toList_join, trailing] using ⟨hend, visible_space.oneLine, (h text rfl).oneLine⟩

/-- A function or handler ends with the line of its `end`. -/
theorem stmt_lastLine {decl : Stmt} (hdecl : standsApart decl = true) (h : decl.Neat) :
    LastLine (join (stmt 0 decl)).toList (join (sign .end :: trailing decl.closing)).toList := by
  have hblock (ws : List Word) (b : Block) : ∃ front,
      ws ++ newline :: block 0 b = front ++ sign .end :: trailing b.comment ∧ ['\n'] <:+ (join front).toList := by
    obtain ⟨token, comment, ss⟩ := b
    refine ⟨ws ++ [newline] ++ lines false (stmts 1 ss), by simp [block, indent, Block.comment], ?_⟩
    exact lines_endLine _ _ ⟨(join ws).toList, (toList_join_newline ws).symm⟩
  have hline := newline_not_mem_closing h.closing
  cases decl with
  | func _ comment sig body =>
    obtain ⟨front, heq, hfront⟩ := hblock (funcHead sig ++ trailing comment) body
    exact ⟨_, (congrArg (fun ws => (join ws).toList) heq).trans (toList_join_append _ _), hfront, hline⟩
  | on _ comment name vs body =>
    obtain ⟨front, heq, hfront⟩ := hblock (sign .on :: space :: ident name :: params vs ++ trailing comment) body
    exact ⟨_, (congrArg (fun ws => (join ws).toList) heq).trans (toList_join_append _ _), hfront, hline⟩
  | _ => cases hdecl

end Layout

/-- Some lines stand below `front` in a text, with a blank line or the start of the text above them, and a
blank line or the end of the text below. -/
def StandApart (text front block : List Char) : Prop :=
  ∃ below, text = front ++ block ++ '\n' :: below ∧ BlankAbove front ∧ BlankBelow below

/-- In every program, a function or a handler stands apart together with the comment lines right above it. -/
theorem Program.format_apart {p : Program} {init after : List Stmt} {decl : Stmt}
    (hp : p.stmts = init ++ decl :: after) (hdecl : standsApart decl = true) :
    ∃ before comments, init = before ++ comments ∧ (∀ c ∈ comments, isComment c = true) ∧
      (∀ s, before.getLast? = some s → isComment s = false) ∧
      StandApart p.format.toList (textBefore before (comments ++ decl :: after))
        (commentText comments ++ (join (stmt 0 decl)).toList) := by
  have hlast : ∀ s, (init.rdropWhile isComment).getLast? = some s → isComment s = false := by
    intro s hs
    have hne : init.rdropWhile isComment ≠ [] := by
      intro hnil
      rw [hnil] at hs
      cases hs
    rw [List.getLast?_eq_some_getLast hne] at hs
    obtain rfl := Option.some.inj hs
    exact Bool.eq_false_iff.2 (List.rdropWhile_last_not _ _ hne)
  refine ⟨init.rdropWhile isComment, init.rtakeWhile isComment, List.rdropWhile_append_rtakeWhile.symm,
    fun c hc => List.mem_rtakeWhile_imp hc, hlast, ?_⟩
  have hcomments : ∀ c ∈ init.rtakeWhile isComment, isComment c = true :=
    fun c hc => List.mem_rtakeWhile_imp hc
  have hsplit : p.stmts = init.rdropWhile isComment ++ (init.rtakeWhile isComment ++ decl :: after) := by
    rw [← List.append_assoc, List.rdropWhile_append_rtakeWhile, hp]
  exact ⟨_, toList_format_declaration hsplit hdecl hcomments,
    blankAbove_textBefore (leadsApart_of_comments hdecl hcomments) hlast, blankBelow_declaration hdecl after⟩

end TinyScript
