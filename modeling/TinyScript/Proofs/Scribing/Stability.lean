import TinyScript.Proofs.Scribing.Sources

/-!
# Formatting what is formatted

The canonical layout of a program is that of what it is read as again.
-/

namespace TinyScript.Layout
open Word

variable {fn : String → Bool} {c c' : Scribe} {rows : List Row}

/-! ### Rows that are shown -/

/-- The rows of a program in its layout. -/
def shown (rows : List Row) : List Row :=
  if rows.isEmpty then [blankRow] else tidy false rows

theorem rowWords_shown (rows : List Row) : rowWords (shown rows) = programWords rows := by
  unfold shown programWords
  split <;> rfl

theorem shown_shown (rows : List Row) : shown (shown rows) = shown rows := by
  cases rows with
  | nil => rfl
  | cons r rest =>
    have hshown : shown (r :: rest) = tidy false (r :: rest) := rfl
    have hne : (tidy false (r :: rest)).isEmpty = false := by
      have hhead := head_tidy (r :: rest)
      cases h : tidy false (r :: rest) with
      | nil => rw [h] at hhead; cases hhead
      | cons => rfl
    rw [hshown, shown, hne, if_neg Bool.false_ne_true, tidy_tidy]

/-- Only rows that hold nothing are blank. -/
def BlankRows (rows : List Row) : Prop :=
  ∀ r ∈ rows, r.kind = .blank → r = blankRow

theorem blankRows_nil : BlankRows [] :=
  fun _ hr => absurd hr List.not_mem_nil

theorem BlankRows.append {rows' : List Row} (h : BlankRows rows) (h' : BlankRows rows') : BlankRows (rows ++ rows') :=
  fun r hr => (List.mem_append.1 hr).elim (h r) (h' r)

theorem BlankRows.cons {r : Row} (hr : r.kind ≠ .blank) (h : BlankRows rows) : BlankRows (r :: rows) :=
  List.forall_mem_cons.2 ⟨fun hk => absurd hk hr, h⟩

theorem blankRows_row {r : Row} (hr : r.kind ≠ .blank) : BlankRows [r] :=
  .cons hr blankRows_nil

mutual

theorem blankRows_stmt (level : Nat) (s : Stmt) : BlankRows (stmtRows level s) := by
  match s with
  | .empty _ none => exact fun r hr _ => List.mem_singleton.1 hr
  | .cond _ comment first more otherwise =>
    exact (((blankRows_branch level _ first).append (blankRows_more level more)).append
      (blankRows_last level otherwise)).append
      (blankRows_row (plainKind_ne level))
  | .loop _ (.mk _ comment condition body) => exact .cons nofun (blankRows_block level body (plainKind_ne level))
  | .each _ comment v r body => exact .cons nofun (blankRows_block level body (plainKind_ne level))
  | .func _ comment sig body => exact .cons (openKind_ne level) (blankRows_block level body (closeKind_ne level))
  | .on _ comment name vs body => exact .cons (openKind_ne level) (blankRows_block level body (closeKind_ne level))
  | .empty tok (some comment) => exact blankRows_row nofun
  | .typedDecl .. | .inferredDecl .. | .assign .. | .call .. | .ret .. | .brk .. =>
    exact blankRows_row (plainKind_ne level)

theorem blankRows_branch (level : Nat) (lead : List Word) (b : Branch) : BlankRows (branchRows level lead b) := by
  match b with
  | .mk _ comment condition (.mk _ _ ss) => exact .cons nofun (blankRows_stmts (level + 1) ss)

theorem blankRows_more (level : Nat) (bs : List Branch) : BlankRows (moreRows level bs) := by
  match bs with
  | [] => exact blankRows_nil
  | b :: bs => exact (blankRows_branch level _ b).append (blankRows_more level bs)

theorem blankRows_last (level : Nat) (otherwise : Option Block) : BlankRows (lastRows level otherwise) := by
  match otherwise with
  | none => exact blankRows_nil
  | some (.mk _ comment ss) => exact .cons nofun (blankRows_stmts (level + 1) ss)

theorem blankRows_block (level : Nat) {kind : RowKind} (b : Block) (hk : kind ≠ .blank) :
    BlankRows (blockRows level kind b) := by
  match b with
  | .mk _ comment ss => exact (blankRows_stmts (level + 1) ss).append (blankRows_row hk)

theorem blankRows_stmts (level : Nat) (ss : List Stmt) : BlankRows (stmtsRows level ss) := by
  match ss with
  | [] => exact blankRows_nil
  | s :: ss => exact (blankRows_stmt level s).append (blankRows_stmts level ss)

end

theorem RowsDrawn.shown (h : RowsDrawn fn c rows c') (hc : c = .atLine c.level c.inBody c.declared)
    (hblank : BlankRows rows) : RowsDrawn fn c (Layout.shown rows) c' := by
  unfold Layout.shown
  split
  · next hempty =>
    obtain rfl := List.isEmpty_iff.1 hempty
    cases h
    exact .cons (rowDrawn_blankRow hc) (.nil c)
  · exact h.tidy hc hblank false

theorem RowsDrawn.jointed (h : RowsDrawn fn c rows c') :
    Jointed (rowWords rows) ∧ ∀ w ∈ rowWords rows, Sound w := by
  induction h with
  | nil => exact ⟨.nil, fun w hw => absurd hw List.not_mem_nil⟩
  | @cons c c₁ c' r rows hrow hrest ih =>
    obtain ⟨hjointed, hsound, hend, -⟩ := hrow.jointed
    rw [rowWords_cons]
    refine ⟨List.IsChain.append hjointed ih.1 fun x hx y _ => ?_, fun w hw => (List.mem_append.1 hw).elim
      (hsound w) (ih.2 w)⟩
    have hx : wordKind x = .nl := by
      rw [← hend, lastWordKind, hx]
      rfl
    rw [hx]
    rfl

end TinyScript.Layout

namespace TinyScript.Parsing
open Layout Word

variable {source : String} {prelude : Prelude} {d d' : Draft} {rows rows' : List Row} {declared declared' : List String}

/-! ### Pages of a source -/

/-- All tokens up to the end of input are copied as whole rows. The end of input may stand for the end of the last
line. -/
structure Paged (d : Draft) (rows : List Row) (declared : List String) : Prop where
  plain : Plain d declared
  pages : ∃ n q, Finished d n q ∧ (q = blankPage rows 0 false declared ∨ ∃ words c,
    stroke d.fn q.scribe .eof (d.tokenAt n).literal (d.afterBlank n) = some (words, c) ∧
      blankPage rows 0 false declared = q.write words c)

theorem ProgramCopied.paged {p : Program} {s : State} (h : ProgramCopied d p s) :
    ∃ known, (∀ name, d.prelude.isGlobal name → (known.find? (·.name == name)).isSome = (d.prelude.func? name).isSome) ∧
      ∃ declared, Paged (d.whole known) (stmtsRows 0 p.stmts) declared := by
  obtain ⟨known, -, hglobals, ⟨n, bodies, -, declared, hplain, hwhole⟩, heof⟩ := h
  refine ⟨known, hglobals, declared, hplain, ?_⟩
  rcases hwhole.copied with hcopied | ⟨-, j, q, words, c, hcopied, hk, hstroke, hpage⟩
  · exact ⟨s.pos, _, ⟨hcopied.congr rfl rfl rfl rfl rfl, hwhole.cur ▸ heof⟩, .inl rfl⟩
  · exact ⟨j, q, ⟨hcopied.congr rfl rfl rfl rfl rfl, hk⟩, .inr ⟨words, c, hstroke, hpage⟩⟩

section
variable (h : Paged d rows declared) (hfirst : d.first = blankPage [] 0 false d.first.scribe.declared)
include h hfirst

/-- The rows of a source are drawn. -/
theorem Paged.drawn (hd : d.Sourced) : RowsDrawn d.fn d.first.scribe rows (.atLine 0 false declared) := by
  have hbegin : d.first.scribe.place = .start := by rw [hfirst]; rfl
  have hblank : PageDrawn d.fn d.first.scribe d.first :=
    ⟨d.first.scribe, by rw [hfirst]; exact .nil _, hbegin, by rw [hfirst]; exact .nil⟩
  have hpage : PageDrawn d.fn d.first.scribe (blankPage rows 0 false declared) := by
    obtain ⟨n, q, hend, hq⟩ := h.pages
    obtain ⟨hdrawn, hcontinues⟩ := hend.copied.drawn hd hblank hbegin
    rcases hq with rfl | ⟨words, c, hstroke, hpage⟩
    · exact hdrawn
    · rw [hpage]
      refine hdrawn.write (hd.strikes hdrawn hcontinues (by rw [hend.eof]; nofun) ?_)
      rwa [hend.eof]
  obtain ⟨c, hrows, hc, hline⟩ := hpage
  obtain rfl : Scribe.atLine 0 false declared = c := hline.of_nil hc rfl
  exact hrows

end

theorem Draft.Sourced.whole (h : d.Sourced) (known : List Signature) : (d.whole known).Sourced :=
  ⟨h.faithful, h.beside⟩

/-- The functions that are copied as such in both drafts are the same, for names that are declared in both. -/
theorem sameCalls (hplain : Plain d declared) (hplain' : Plain d' declared') (hfirst : d'.first = d.first)
    (hfn : ∀ name ∈ d.first.scribe.declared, d.fn name = d'.fn name) : SameCalls d.fn d'.fn declared declared' := by
  intro name hname hname'
  by_cases hglobal : name ∈ d.first.scribe.declared
  · rw [hfn name hglobal]
  · exact ⟨fun h => absurd (hplain name hname h) hglobal, fun h => absurd (hfirst ▸ hplain' name hname' h) hglobal⟩

/-- The words of rows in their layout are copied as these rows. -/
theorem Paged.rows_eq {ts : List (TokenKind × String)} (h : Paged d rows declared) (h' : Paged d' rows' declared')
    (hd : d.Sourced) (hbegin : d.first = blankPage [] 0 false d.first.scribe.declared) (hfirst : d'.first = d.first)
    (hstart : d'.start = 0) (hfn : ∀ name ∈ d.first.scribe.declared, d.fn name = d'.fn name) (hblank : BlankRows rows)
    (hfrom : d'.From 0 ts) (hspoken : Spoken (rowWords (shown rows)) ts) : rows' = shown rows := by
  have hline : d.first.scribe = .atLine d.first.scribe.level d.first.scribe.inBody d.first.scribe.declared := by
    rw [hbegin]
    rfl
  have hdrawn := (h.drawn hbegin hd).shown hline hblank
  obtain ⟨n, q, hend, hq⟩ := h'.pages
  have hsub : q.scribe.declared ⊆ declared' := by
    rcases hq with rfl | ⟨words, c, hstroke, hpage⟩
    · exact List.Subset.refl _
    · have hc : Scribe.atLine 0 false declared' = c := (congrArg Page.scribe hpage).trans Page.write_scribe
      have hdeclared := stroke_declared hstroke
      rw [← hc] at hdeclared
      exact hdeclared
  have hsame : SameCalls d.fn d'.fn declared q.scribe.declared := fun name hname hname' =>
    sameCalls h.plain h'.plain hfirst hfn name hname (hsub hname')
  have hfollows : Follows d' (rowWords (shown rows) ++ []) [] [] d.first.scribe := by
    refine ⟨0, ts, d.first.scribe, ?_, .same _, rfl, hfrom, ?_⟩
    · have hcopied : Copied d' d'.start d'.first := .start
      rw [hstart, hfirst, hbegin] at hcopied
      rwa [hbegin]
    · rwa [List.append_nil]
  have hpage := (hfollows.copyRows hend hdrawn hsame).end hend rfl
  rcases hq with hq | ⟨words, c, hstroke, -⟩
  · exact congrArg Page.rows (hq.symm.trans hpage)
  · rw [hpage] at hstroke
    cases hstroke

end TinyScript.Parsing

namespace TinyScript
open Layout Parsing

variable {source : String} {prelude : Prelude} {p p' : Program}

theorem Program.format_eq (p : Program) : p.format = Word.join (rowWords (shown (stmtsRows 0 p.stmts))) := by
  rw [Program.format, rowWords_shown, programWords_stmtsRows]

theorem isGlobal_of_mem {d : Draft} {known : List Signature} {name : String}
    (h : name ∈ (d.whole known).first.scribe.declared) :
    d.prelude.isGlobal name := by
  obtain ⟨v, hv, rfl⟩ := List.mem_map.1 h
  exact List.any_eq_true.2 ⟨v, hv, beq_self_eq_true _⟩

theorem from_ofState {s : State} (h : s.Linked) (known : List Signature) :
    ((Draft.ofState s h).whole known).From 0 (s.tokens.toList.map fun t => (t.kind, t.literal)) := by
  intro j t hj
  rw [List.getElem?_map, Array.getElem?_toList] at hj
  obtain ⟨token, htoken, rfl⟩ := Option.map_eq_some_iff.1 hj
  have hat : ((Draft.ofState s h).whole known).tokenAt (0 + j) = token := by
    show (s.tokens[0 + j]?).getD s.eof = token
    rw [Nat.zero_add, htoken]
    rfl
  rw [hat]
  exact ⟨rfl, rfl⟩

/-- Of two sources that are copied the rows of the second are those of the first in their layout, if its tokens are
those of their text. -/
theorem rows_of_copied {s t u u' : State} {hs : s.Linked} {ht : t.Linked}
    (h : ProgramCopied (Draft.ofState s hs) p u) (h' : ProgramCopied (Draft.ofState t ht) p' u')
    (hsourced : (Draft.ofState s hs).Sourced) (hprelude : t.prelude = s.prelude)
    (htokens : t.tokens = Token.scan p.format) :
    stmtsRows 0 p'.stmts = shown (stmtsRows 0 p.stmts) := by
  obtain ⟨known, hglobals, declared, hpaged⟩ := h.paged
  obtain ⟨known', hglobals', declared', hpaged'⟩ := h'.paged
  have hsourced := hsourced.whole known
  have hblank := blankRows_stmts 0 p.stmts
  obtain ⟨hjointed, hsound⟩ := ((hpaged.drawn rfl hsourced).shown rfl hblank).jointed
  have hspoken := spoken_scan hjointed hsound
  rw [← Program.format_eq, ← htokens] at hspoken
  have hfirst : ((Draft.ofState t ht).whole known').first = ((Draft.ofState s hs).whole known).first :=
    congrArg (fun prelude : Prelude => blankPage [] 0 false (prelude.globals.map Var.name)) hprelude
  refine hpaged.rows_eq hpaged' hsourced rfl hfirst rfl (fun name hname => ?_) hblank (from_ofState ht known') hspoken
  have hglobal : s.prelude.isGlobal name := isGlobal_of_mem hname
  have hglobal' : t.prelude.isGlobal name := hprelude ▸ hglobal
  refine (hglobals name hglobal).trans (Eq.trans ?_ (hglobals' name hglobal').symm)
  show (s.prelude.func? name).isSome = (t.prelude.func? name).isSome
  rw [hprelude]

/-- The text of a program is the text of what it is read as again. -/
theorem Program.format_stable (h : Program.parse source prelude = .ok p) (hnumbers : ReadsNumbersBack source)
    (h' : Program.parse p.format prelude = .ok p') : p'.format = p.format := by
  obtain ⟨s, hcopied⟩ := copied_of_parse h
  obtain ⟨s', hcopied'⟩ := copied_of_parse h'
  have hrows := rows_of_copied hcopied hcopied' (sourced_start (legal_of_parse h) hnumbers) rfl
    (start_tokens (legal_of_parse h'))
  rw [Program.format_eq, Program.format_eq, hrows, shown_shown]

/-- A program with a function that nothing stands apart from, a call in an array over two lines, and a number with more
digits than it needs. -/
def untidySource : String :=
  "x:=[1.50 (sum 1 2) // two\n 3 ]\n\n\nfunc sum:num a:num b:num\nreturn a+b\nend\nprint x\n"

theorem untidySource_stable : ∃ p p', Program.parse untidySource .standard = .ok p ∧ ReadsNumbersBack untidySource ∧
    Program.parse p.format .standard = .ok p' ∧ p.format ≠ untidySource ∧ p'.format = p.format := by
  have hparse : ((Program.parse untidySource .standard).bind fun p => if p.format = untidySource then .error [] else
      Program.parse p.format .standard).toOption.isSome := by decide +kernel
  have hnumbers : ReadsNumbersBack untidySource := by decide +kernel
  cases hp : Program.parse untidySource .standard with
  | error problems => rw [hp] at hparse; cases hparse
  | ok p =>
    rw [hp] at hparse
    by_cases heq : p.format = untidySource
    · simp [Except.bind, heq, Except.toOption] at hparse
    · cases hp' : Program.parse p.format .standard with
      | error problems => simp [Except.bind, heq, hp', Except.toOption] at hparse
      | ok p' => exact ⟨p, p', rfl, hnumbers, hp', heq, Program.format_stable hp hnumbers hp'⟩

end TinyScript
