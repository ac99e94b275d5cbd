import TinyScript.Parsing.Program
import TinyScript.Proofs.Scribing.Lines
import TinyScript.Proofs.Parsing.Programs

/-!
# Copies of simple statements

A statement on a line of its own is copied as its row.
-/

namespace TinyScript.Layout
open Word

namespace Scribe

/-- At the start of a line with a statement that is not followed by a block. -/
def plain (level : Nat) (inBody : Bool) (declared : List String) : Scribe :=
  { atLine level inBody declared with kind := plainKind level }

/-- At the start of a line with a statement that a block follows. -/
def opening (level : Nat) (inBody : Bool) (declared : List String) : Scribe :=
  { atLine level inBody declared with nextLevel := level + 1, kind := .inner }

section
variable (c : Scribe) (place : Place) (name : String) (level : Nat) (inBody : Bool) (declared : List String)

@[simp] theorem goTo_nextLevel : (c.goTo place).nextLevel = c.nextLevel := rfl
@[simp] theorem goTo_nextInBody : (c.goTo place).nextInBody = c.nextInBody := rfl
@[simp] theorem goTo_kind : (c.goTo place).kind = c.kind := rfl
@[simp] theorem declare_nextLevel : (c.declare name).nextLevel = c.nextLevel := rfl
@[simp] theorem declare_nextInBody : (c.declare name).nextInBody = c.nextInBody := rfl
@[simp] theorem declare_kind : (c.declare name).kind = c.kind := rfl
@[simp] theorem plain_nextLevel : (plain level inBody declared).nextLevel = level := rfl
@[simp] theorem plain_nextInBody : (plain level inBody declared).nextInBody = inBody := rfl
@[simp] theorem plain_kind : (plain level inBody declared).kind = plainKind level := rfl
@[simp] theorem opening_nextLevel : (opening level inBody declared).nextLevel = level + 1 := rfl
@[simp] theorem opening_nextInBody : (opening level inBody declared).nextInBody = inBody := rfl
@[simp] theorem opening_kind : (opening level inBody declared).kind = .inner := rfl

end

end Scribe

end TinyScript.Layout

namespace TinyScript.Parsing
open Layout Word

variable {d : Draft} {σ : List Bool} {n m level : Nat} {inBody : Bool} {p q : Page} {c c' : Scribe}
  {words w : List Word} {rows : List Row} {s : State} {declared : List String}

/-! ### Parsers that declare variables -/

namespace Parses
variable {α : Type} {P P' : State → Prop} {Q : α → State → Prop}

/-- Nothing needs to hold of what is only reached after a problem. -/
theorem never {m : Parse α} {R : α → State → Prop} (h : Parses P m Q) : Parses (fun _ => False) m R :=
  ((h.frame (φ := False)).conseq (fun _ => False.elim) fun _ _ => And.left).conseq (fun _ => id) fun _ _ => False.elim

theorem or {m : Parse α} (h : Parses P m Q) (h' : Parses P' m Q) : Parses (fun s => P s ∨ P' s) m Q :=
  (choose (ι := Bool) (P := fun b => if b then P else P') fun b => by cases b <;> assumption).conseq
    (fun s hs => hs.elim (fun hs => ⟨true, hs⟩) fun hs => ⟨false, hs⟩) fun _ _ => id

theorem setScopes {f : State → Scopes} {Q : PUnit → State → Prop}
    (h : ∀ s, P s → Q ⟨⟩ { s with scopes := f s }) : Parses P (modify fun s => { s with scopes := f s }) Q :=
  step (fun _ => rfl) h

theorem checkDecl {v : Var} {allowAnonymous : Bool} {Q : Bool → State → Prop}
    (h : ∀ s, P s → s.isFunc v.name = false → Q true s) : Parses P (Parsing.checkDecl v allowAnonymous) Q := by
  refine Parses.bind (Parses.state (Q := fun t s => P s ∧ s = t) fun s hs => ⟨hs, rfl⟩) fun t => ?_
  split
  · next hnone =>
    refine pure fun s hs => h s hs.1 ?_
    rw [← hs.2] at hnone
    unfold State.declProblem? at hnone
    split at hnone
    · cases hnone
    split at hnone
    · cases hnone
    split at hnone
    · cases hnone
    · next hfn => exact Bool.eq_false_iff.2 hfn
  · exact (reportedAt (Q := fun _ _ => False)).bind fun _ => pure fun _ => False.elim

end Parses

theorem On.declare {v : Var} {used : Bool} (h : On d σ n p s) (hv : v.name ∈ p.scribe.declared) :
    On d σ n p { s with scopes := s.scopes.declare v used } := by
  refine h.withScopes (List.Subset.trans (Scopes.names_declare s.scopes v used) ?_)
  exact List.cons_subset.2 ⟨hv, h.scopes⟩

/-! ### The start of a line -/

/-- At the first token of a line. -/
def LineStart (d : Draft) (σ : List Bool) (n level : Nat) (inBody : Bool) (rows : List Row) (declared : List String)
    (s : State) : Prop :=
  Plain d declared ∧ On d σ n (blankPage rows level inBody declared) s

theorem Lines.starts (h : Lines d σ n level inBody rows s) (heof : s.cur.kind ≠ .eof) :
    ∃ declared, LineStart d σ n level inBody rows declared s := by
  obtain ⟨declared, hplain, hwhole⟩ := h
  exact ⟨declared, hplain, hwhole.on heof⟩

/-- Copies the first token of a line. -/
theorem LineStart.step {kind : TokenKind} (h : LineStart d σ n level inBody rows declared s) (hk : s.cur.kind = kind)
    (hkind : kind ≠ .eof ∧ kind ≠ .ws)
    (hstroke : startStroke (.atLine level inBody declared) kind s.cur.literal = some (words, c))
    (hc : c.place ≠ .start) :
    On d σ (n + 1) (⟨rows, words, c⟩ : Page) s.advance := by
  have hstep := h.2.step (by rw [hk]; exact hkind.1) (by rw [hk]; exact hkind.2) (w := words) (c := c)
    (by rw [hk]; exact hstroke) hc
  exact hstep.toOn

/-- Reads a whole line. -/
theorem Parses.line {α : Type} {m : Parse α} {K : State → Prop} {Q : α → State → Prop}
    (hK : ∀ s, K s → s.cur.kind ≠ .eof)
    (h : ∀ declared, Parses (fun s => LineStart d σ n level inBody rows declared s ∧ K s) m Q) :
    Parses (fun s => Lines d σ n level inBody rows s ∧ K s) m Q := by
  refine (Parses.choose h).conseq ?_ fun _ _ => id
  rintro s ⟨hlines, hs⟩
  obtain ⟨declared, hstarts⟩ := hlines.starts (hK s hs)
  exact ⟨declared, hstarts, hs⟩

theorem Gets.line {α : Type} {m : Attempt α} {K : State → Prop} {Q : α → State → Prop}
    (hK : ∀ s, K s → s.cur.kind ≠ .eof)
    (h : ∀ declared, Gets (fun s => LineStart d σ n level inBody rows declared s ∧ K s) m Q) :
    Gets (fun s => Lines d σ n level inBody rows s ∧ K s) m Q :=
  Parses.line hK h

/-- At the end of a line of which `words` are copied and which ends as `c` would end it. -/
def LineDone (d : Draft) (σ : List Bool) (n : Nat) (rows : List Row) (words : List Word) (c : Scribe)
    (s : State) : Prop :=
  Plain d c.declared ∧ s.atLineEnd ∧
    ∃ c', Finishes d.fn c c' ∧ c'.declared = c.declared ∧ On d σ n (⟨rows, words, c'⟩ : Page) s

theorem LineDone.lines (h : LineDone d σ n rows words c s) :
    Lines d σ n c.nextLevel c.nextInBody
    (rows ++ [⟨words ++ trailing s.comment? ++ [newline], c.kind⟩]) s.nextLine := by
  obtain ⟨hplain, hend, c', hfin, hdeclared, hon⟩ := h
  exact On.lines (p := ⟨rows, [], c'⟩) hon hfin hdeclared hend rfl hplain

theorem LineDone.declare {v : Var} {used : Bool} (h : LineDone d σ n rows words c s) (hv : v.name ∈ c.declared) :
    LineDone d σ n rows words c { s with scopes := s.scopes.declare v used } := by
  obtain ⟨hplain, hend, c', hfin, hdeclared, hon⟩ := h
  exact ⟨hplain, hend, c', hfin, hdeclared, hon.declare (by rw [← hdeclared] at hv; exact hv)⟩

/-- Goes to the next line. -/
theorem Parses.toNextLine {α : Type} {Q : α → State → Prop} {k : Option String → Parse α}
    (hk : ∀ comment, Parses (Lines d σ n c.nextLevel c.nextInBody
      (rows ++ [⟨words ++ trailing comment ++ [newline], c.kind⟩])) (k comment) Q) :
    Parses (LineDone d σ n rows words c) (do let comment ← comment?; nextLine; k comment) Q := by
  refine .lookThen fun comment => Parses.bind (Parses.moveTo (Q := fun _ => Lines d σ n c.nextLevel c.nextInBody
    (rows ++ [⟨words ++ trailing comment ++ [newline], c.kind⟩])) State.moves_nextLine ?_) fun _ => hk comment
  rintro s ⟨hs, rfl⟩
  exact hs.lines

/-- What follows a report is of no account. -/
theorem Gets.unlessReport {α : Type} {P : State → Prop} {Q : α → State → Prop} {c : Prop} [Decidable c] {token : Token}
    {problem : Problem} {rest : Attempt α} (hrest : Gets (fun s => c ∧ P s) rest Q) :
    Gets P (if c then rest else liftM (reportAt token problem) >>= fun _ => rest) Q :=
  .ite (fun hc => hrest.conseq (fun _ hs => ⟨hc, hs⟩) fun _ _ => id) fun _ =>
    .liftBind (Parses.reportedAt (Q := fun _ _ => False)) fun _ => Parses.never hrest

theorem Parses.toNextLineOf {α : Type} {Q : Option α → State → Prop} {k : Option String → Attempt α}
    (hk : ∀ comment, Parses (Lines d σ n c.nextLevel c.nextInBody
      (rows ++ [⟨words ++ trailing comment ++ [newline], c.kind⟩])) (k comment).run Q) :
    Parses (LineDone d σ n rows words c) (OptionT.run do let comment ← OptionT.lift comment?; nextLine; k comment) Q :=
  Parses.toNextLine (k := fun comment => (k comment).run) hk

theorem Gets.toNextLine {α : Type} {Q : α → State → Prop} {k : Option String → Attempt α}
    (hk : ∀ comment, Gets (Lines d σ n c.nextLevel c.nextInBody
      (rows ++ [⟨words ++ trailing comment ++ [newline], c.kind⟩])) (k comment) Q) :
    Gets (LineDone d σ n rows words c) (do let comment ← OptionT.lift comment?; nextLine; k comment) Q :=
  Parses.toNextLineOf hk

/-- What is read after a statement's line. -/
abbrev Adds (d : Draft) (σ : List Bool) (n level : Nat) (inBody : Bool) (rows : List Row)
    (stmt : Stmt) : State → Prop :=
  Lines d σ n level inBody (rows ++ stmtRows level stmt)

/-! ### Names with types -/

theorem Within.advance_eof (h : Within d σ n declared s) (heof : s.cur.kind = .eof) : s.advance.cur.kind = .eof := by
  have hone : s.advanceOne.cur.kind = .eof := by
    rw [h.advanceOne.cur]
    unfold State.advanceOne
    split
    · rw [h.cur] at heof
      exact d.eof_last _ heof
    · rw [← h.cur]
      exact heof
  have hskip : s.advanceOne.skipBlank = s.advanceOne := if_neg (by rw [hone]; nofun)
  unfold State.advance
  dsimp only
  rw [hskip, ite_self]
  exact hone

/-- The end of input is no type. -/
theorem type_eof {P : State → Prop} (hP : ∀ s, P s → s.cur.kind = .eof) :
    Parses P Parsing.type fun ty _ => ty.kind = .illegal := by
  refine Parses.ofRun (fun s h => (type_keeps (φ := True) (o := s.outline) s (fun _ => ⟨trivial, rfl⟩) h).1)
    fun s hs _ => ?_
  show ((typeWithin (s.tokens.size + 1)).run s).1.kind = .illegal
  have hk := hP s hs
  show ((match s.cur.kind with | _ => _ : Parse Ty).run s.advance).1.kind = .illegal
  rw [hk]
  rfl

/-- Reads a name with its type, of which the name is copied as `head` says. Any token may stand for the
colon. -/
theorem typedVar_writes (site : Site) (head : String → List Word × Scribe) (next : String → Scribe) {K : State → Prop}
    (hsp : σ.headD false = false)
    (hhead : ∀ name blank, stroke d.fn p.scribe .ident name blank = some (head name))
    (hplace : ∀ name, (head name).2.place ≠ .start)
    (hcolon : ∀ s, K s → ∀ name literal blank,
      stroke d.fn (head name).2 s.advance.cur.kind literal blank = some
      ([sign .colon], (next name).goTo (.type site))) :
    Parses (fun s => On d σ n p s ∧ s.cur.kind = .ident ∧ K s) Parsing.typedVar fun r s => r.1.ty.kind ≠ .illegal ∧
      On d σ (n + 1)
      (p.add ((head r.1.name).1 ++ sign .colon :: Layout.type r.1.ty) ((next r.1.name).goTo site.after)) s := by
  refine .lookThen fun token => ?_
  obtain ⟨w, hw⟩ : ∃ w, w = (head token.literal).1 := ⟨_, rfl⟩
  obtain ⟨c, hc⟩ : ∃ c, c = next token.literal := ⟨_, rfl⟩
  refine Parses.bind (Parses.moveTo (Q := fun _ s => On d σ (n + 1) (p.add w (head token.literal).2) s ∧
    s.cur.kind ≠ .ws ∧
    ∀ literal blank, stroke d.fn (head token.literal).2 s.cur.kind literal blank =
      some ([sign .colon], c.goTo (.type site))) State.moves_advance ?_) fun _ => ?_
  · rintro s ⟨⟨hon, hk, hK⟩, rfl⟩
    have hstep := hon.step (by rw [hk]; nofun) (by rw [hk]; nofun) (by rw [hk]; exact hhead _ _) (hplace _)
    exact ⟨hw ▸ hstep.toOn, hon.cur_advance_ne hsp, hc ▸ hcolon s hK _⟩
  -- the end of input in place of the colon is no type either
  refine Parses.bind (Parses.moveTo (Q := fun _ s => s.cur.kind = .eof ∨
    On d σ (n + 1) (p.add (w ++ [sign .colon]) (c.goTo (.type site))) s) State.moves_advance ?_) fun _ => ?_
  · rintro s ⟨hon, hws, hstroke⟩
    by_cases heof : s.cur.kind = .eof
    · exact .inl (hon.advance_eof heof)
    · have hstep := hon.step heof hws (hstroke _ _) nofun
      rw [Page.add_add] at hstep
      exact .inr (hstep.toOn.mono (Nat.le_succ _))
  refine Parses.bind (Q := fun ty s => ty.kind ≠ .illegal →
    On d σ (n + 1) (p.add (w ++ sign .colon :: Layout.type ty) (c.goTo site.after)) s) ?_ fun ty => ?_
  · refine Parses.or ((type_eof fun _ => id).conseq (fun _ => id) fun ty s hill hlegal => absurd hill hlegal) ?_
    refine (type_writes (p := p.add (w ++ [sign .colon]) (c.goTo (.type site))) site rfl).conseq (fun _ => id) ?_
    intro ty s hs hlegal
    simpa using (hs.2 hlegal).2
  · refine .lookThen fun t => ?_
    refine .ite (fun _ => (Parses.reportedAt (Q := fun _ _ => False)).bind fun _ => .pure fun _ => False.elim)
      fun hlegal => ?_
    exact .pure fun s hs => by
      subst hw hc
      exact ⟨hlegal, hs.1 hlegal⟩

theorem Within.cur_advance (h : Within d σ n declared s) (hsp : σ.headD false = false) (heof : s.cur.kind ≠ .eof) :
    s.advance.cur = s.peek := by
  have hspaced : s.isSpaced = false := h.isSpaced.trans hsp
  rw [h.advance_of_unspaced hsp]
  unfold State.skipBlank State.peek
  rw [h.advanceOne.cur, h.pos_advanceOne heof, ← h.tokenAt, hspaced]
  dsimp only
  split
  · next hk =>
    have heof' : s.advanceOne.cur.kind ≠ .eof := by
      rw [h.advanceOne.cur, h.pos_advanceOne heof, ← h.tokenAt, hk]
      nofun
    rw [h.advanceOne.advanceOne.cur, h.advanceOne.pos_advanceOne heof', h.pos_advanceOne heof, ← h.tokenAt]
    simp [hk]
  · next hk =>
    rw [h.advanceOne.cur, h.pos_advanceOne heof, ← h.tokenAt]
    simp [hk]

/-! ### Declarations -/

theorem typedDecl_writes (hknows : d.Knows) (hsp : σ.headD false = false) :
    Parses (fun s => Lines d σ n level inBody rows s ∧ s.cur.kind = .ident ∧ s.peek.kind = .colon) typedDecl
      (Adds d σ (n + 1) level inBody rows) := by
  refine Parses.line (fun s hs => by rw [hs.1]; nofun) fun declared => ?_
  have hvar := typedVar_writes (d := d) (σ := σ) (n := n) (p := blankPage rows level inBody declared)
    (K := fun s => s.advance.cur.kind = .colon) .declaration
    (fun name => (indent level ++ [ident name], (Scribe.plain level inBody declared).goTo (.named name)))
    (fun name => (Scribe.plain level inBody declared).declare name) hsp (fun _ _ => rfl) (fun _ => nofun)
      fun s hK name literal blank => by rw [hK]; rfl
  refine Parses.bind ((hvar.frame (φ := Plain d declared)).conseq ?_ fun _ _ => id) fun r => ?_
  · rintro s ⟨⟨hplain, hon⟩, hk, hpeek⟩
    refine ⟨hplain, hon, hk, ?_⟩
    rw [hon.cur_advance hsp (by rw [hk]; nofun)]
    exact hpeek
  obtain ⟨v, value⟩ := r
  obtain ⟨c, hc⟩ : ∃ c, c = ((Scribe.plain level inBody declared).declare v.name).goTo .finish := ⟨_, rfl⟩
  obtain ⟨words, hwords⟩ : ∃ words, words = indent level ++ [ident v.name] ++ sign .colon ::
    Layout.type v.ty := ⟨_, rfl⟩
  have hend : Parses (LineDone d σ (n + 1) rows words c) (do
      let comment ← comment?
      nextLine
      return Stmt.typedDecl v.token comment v value) (Adds d σ (n + 1) level inBody rows) := by
    refine .toNextLine fun comment => .pure fun s hs => ?_
    subst hc hwords
    simpa [Adds, stmtRows, row, stmt, Layout.typedVar, lastKind] using hs
  have hnever := hend.never (R := Adds d σ (n + 1) level inBody rows)
  dsimp only
  split
  · refine Parses.bind (Parses.checkDecl (Q := fun b s => b = true ∧ Plain d c.declared ∧
      On d σ (n + 1) (⟨rows, words, c⟩ : Page) s) ?_) fun b => ?_
    · rintro s ⟨hplain, -, hon⟩ hfn
      rw [hon.isFunc hknows] at hfn
      subst hc hwords
      exact ⟨rfl, hplain.cons hfn, hon⟩
    split
    · refine Parses.bind (Q := fun _ s => Plain d c.declared ∧ On d σ (n + 1) (⟨rows, words, c⟩ : Page) s)
        (Parses.setScopes ?_) fun _ => ?_
      · rintro s ⟨-, hplain, hon⟩
        exact ⟨hplain, hon.declare (by subst hc; exact List.mem_cons_self)⟩
      refine Parses.bind (Parses.expectEnd ?_) fun _ => hend
      rintro s ⟨hplain, hon⟩ hended
      exact ⟨hplain, hended, c, .finish_place _ (by subst hc; rfl), rfl, hon⟩
    · next hb => exact hnever.conseq (fun s hs => hb hs.1) fun _ _ => id
  · next hk => exact hnever.conseq (fun s hs => hk hs.2.1) fun _ _ => id

/-- Reads the value of a declaration, an assignment or a `return` up to the end of the line. -/
theorem assigned_writes (level : Nat) (hknows : d.Knows) (hsp : σ.headD false = false) (hframes : c.frames = [])
    (hplace : c.place = .operand true .space) (hlevel : c.level = level) :
    Gets (On d σ n (⟨rows, words, c⟩ : Page)) topLevelExpr fun e s => ∃ c', Finishes d.fn c c' ∧
      c'.declared = c.declared ∧ On d σ n (⟨rows, words ++ space :: expr level e, c'⟩ : Page) s := by
  have hexpr := topLevelExpr_writes (d := d) (σ := σ) (n := n) (p := (⟨rows, words, c⟩ : Page)) hknows hplace nofun hsp
    (by rw [hframes]; rfl)
  refine hexpr.conseq (fun _ => id) ?_
  rintro e s ⟨c', hready, -, hon⟩
  have hdepth : c.exprLevel = level := by rw [Scribe.exprLevel, hframes, ← hlevel]; rfl
  refine ⟨c', hready.finishes hframes, hready.declared, ?_⟩
  rw [hdepth] at hon
  exact hon.mono (Nat.le_succ _)

theorem inferredDecl_writes (hknows : d.Knows) (hsp : σ.headD false = false) :
    Gets (fun s => Lines d σ n level inBody rows s ∧ s.cur.kind = .ident ∧ s.peek.kind = .declare) inferredDecl
      (Adds d σ (n + 1) level inBody rows) := by
  refine Parses.line (fun s hs => by rw [hs.1]; nofun) fun declared => ?_
  refine Parses.bind (Q := fun r s => ∃ stmt, r = some stmt ∧ ∃ words c, LineDone d σ (n + 1) rows words c s ∧
    c.nextLevel = level ∧ c.nextInBody = inBody ∧
      stmtRows level stmt = [⟨words ++ trailing s.comment? ++ [newline], c.kind⟩]) ?_ fun r => ?_
  · refine Gets.lookThen fun token => .moveTo (Q := fun s => Plain d declared ∧ s.cur.kind = .declare ∧
      On d σ (n + 1) (⟨rows, indent level ++ [ident token.literal],
        (Scribe.plain level inBody declared).goTo (.named token.literal)⟩ : Page) s) State.moves_advance ?_ ?_
    · rintro s ⟨⟨hs, hk, hpeek⟩, rfl⟩
      refine ⟨hs.1, ?_, hs.step hk ⟨nofun, nofun⟩ rfl nofun⟩
      rw [hs.2.cur_advance hsp (by rw [hk]; nofun)]
      exact hpeek
    obtain ⟨c, hc⟩ : ∃ c, c = ((Scribe.plain level inBody declared).declare token.literal).goTo
      (.operand true .space) :=
      ⟨_, rfl⟩
    refine .moveTo (Q := fun s => Plain d declared ∧ On d σ (n + 1) (⟨rows, indent level ++ [ident token.literal] ++
      [space, sign .declare], c⟩ : Page) s) State.moves_advance ?_ ?_
    · rintro s ⟨hplain, hk, hon⟩
      have hstep := hon.step (by rw [hk]; nofun) (by rw [hk]; nofun) (w := [space, sign .declare]) (c := c)
        (by rw [hk, hc]; rfl) (by rw [hc]; nofun)
      exact ⟨hplain, hstep.toOn.mono (Nat.le_succ _)⟩
    refine .lookThen fun valueToken => .liftBind (((assigned_writes level hknows hsp (by rw [hc]; rfl) (by rw [hc]; rfl)
      (by rw [hc]; rfl)).frame (φ := Plain d declared)).conseq (fun s hs => hs.1) fun _ _ => id) fun value? => ?_
    cases value? with
    | none => exact (Aborts.fail _).gets
    | some value =>
      obtain ⟨words, hwords⟩ : ∃ words, words = indent level ++ [ident token.literal] ++ [space, sign .declare] ++
        space :: expr level value := ⟨_, rfl⟩
      refine .ifFail (.fail _) fun _ => .liftBind (Parses.checkDecl (Q := fun b s => b = true ∧ Plain d c.declared ∧
        ∃ c', Finishes d.fn c c' ∧ c'.declared = c.declared ∧ On d σ (n + 1) (⟨rows, words, c'⟩ : Page) s) ?_)
        fun b => ?_
      · rintro s ⟨e, he, hplain, c', hfin, hdeclared, hon⟩ hfn
        cases he
        rw [hon.isFunc hknows] at hfn
        subst hc hwords
        exact ⟨rfl, hplain.cons hfn, c', hfin, hdeclared, hon⟩
      refine .ite (fun _ => ?_) fun hb => .failure fun s hs => hb hs.1
      refine .liftBind (Q := fun _ s => Plain d c.declared ∧ ∃ c', Finishes d.fn c c' ∧ c'.declared = c.declared ∧
        On d σ (n + 1) (⟨rows, words, c'⟩ : Page) s) (Parses.setScopes ?_) fun _ => ?_
      · rintro s ⟨-, hplain, c', hfin, hdeclared, hon⟩
        refine ⟨hplain, c', hfin, hdeclared, hon.declare ?_⟩
        show token.literal ∈ c'.declared
        rw [hdeclared, hc]
        exact List.mem_cons_self
      refine .liftBind (Parses.expectEnd (Q := fun _ => LineDone d σ (n + 1) rows words c) ?_) fun _ => ?_
      · rintro s ⟨hplain, hon⟩ hend
        exact ⟨hplain, hend, hon⟩
      refine .lookThen fun comment => .pure ?_
      rintro s ⟨hs, rfl⟩
      refine ⟨words, c, hs, by rw [hc]; rfl, by rw [hc]; rfl, ?_⟩
      subst hc hwords
      simp [stmtRows, row, stmt, lastKind, expr_infer]
  · refine Parses.bind (Parses.moveTo (Q := fun _ s => ∃ stmt, r = some stmt ∧
      Adds d σ (n + 1) level inBody rows stmt s)
      State.moves_nextLine ?_) fun _ => .pure fun _ => id
    rintro s ⟨stmt, rfl, words, c, hdone, rfl, rfl, hrows⟩
    refine ⟨stmt, rfl, ?_⟩
    rw [Adds, hrows]
    exact hdone.lines

/-! ### Lines without statements -/

theorem emptyLine_writes :
    Parses (fun s => Lines d σ n level inBody rows s ∧ (s.cur.kind = .nl ∨ s.cur.kind = .comment))
    emptyLine (Adds d σ (n + 1) level inBody rows) := by
  refine Parses.line (fun s hs => by rcases hs with hs | hs <;> rw [hs] <;> nofun) fun declared => ?_
  refine .lookThen fun token => .lookThen fun comment => ?_
  obtain ⟨c, hc⟩ : ∃ c : Scribe, c = { Scribe.atLine level inBody declared with kind := .comment, place := .closed } :=
    ⟨_, rfl⟩
  dsimp only
  split
  · next hk =>
    refine Parses.bind (Parses.moveTo (Q := fun _ s => Plain d declared ∧ comment = some token.literal ∧
      (s.cur.kind = .nl ∨ s.cur.kind = .eof) ∧
      On d σ (n + 1) (⟨rows, indent level ++ [.token .comment (Text.trim token.literal)], c⟩ : Page) s)
      State.moves_advance ?_) fun _ => Parses.bind (Parses.moveTo
      (Q := fun _ => Adds d σ (n + 1) level inBody rows (.empty token comment)) State.moves_advance ?_)
        fun _ => .pure fun _ => id
    · rintro s ⟨⟨⟨hs, -⟩, rfl⟩, rfl⟩
      have hlast : s.advanceOne.cur.kind = .nl ∨ s.advanceOne.cur.kind = .eof := by
        rw [hs.2.toWithin.advanceOne.cur, hs.2.pos_advanceOne (by rw [hk]; nofun)]
        rw [hs.2.cur] at hk
        exact d.comment_last s.pos hk
      have hskip : s.advance = s.advanceOne := by
        have hws : s.advanceOne.cur.kind ≠ .ws := by rcases hlast with h | h <;> rw [h] <;> nofun
        unfold State.advance State.skipBlank
        dsimp only
        rw [if_neg hws, ite_self]
      refine ⟨hs.1, if_pos hk, hskip ▸ hlast, ?_⟩
      subst hc
      exact hs.step hk ⟨nofun, nofun⟩ rfl nofun
    · rintro s ⟨hplain, rfl, hend, hon⟩
      have hrow : stmtRows level (.empty token (some token.literal)) =
          [⟨indent level ++ [.token .comment (Text.trim token.literal)] ++ [newline], .comment⟩] := by
        simp [stmtRows, row, stmt, lastKind]
      refine ⟨declared, hplain, ?_⟩
      rw [hrow]
      have hpage :
        blankPage (rows ++ [⟨indent level ++ [.token .comment (Text.trim token.literal)] ++ [newline], .comment⟩])
          level inBody declared = (⟨rows, indent level ++ [.token .comment (Text.trim token.literal)], c⟩ : Page).newRow
            [newline] c.nextLine := by
        subst hc
        rfl
      rw [hpage]
      rcases hend with hk | hk
      · exact hon.endRow hk (fun _ _ => by subst hc; rfl) rfl
      · have hcomplete := hon.complete (c := c.nextLine) hk (fun _ _ => by subst hc; rfl) rfl
        exact { hon.toWithin.advance with copied := .inr ⟨hon.advance_eof hk, hcomplete⟩ }
  · next hk =>
    refine Parses.bind (Parses.moveTo (Q := fun _ => Adds d σ (n + 1) level inBody rows (.empty token comment))
      State.moves_advance ?_) fun _ => .pure fun _ => id
    rintro s ⟨⟨⟨hs, hkind⟩, rfl⟩, rfl⟩
    have hnl : s.cur.kind = .nl := hkind.resolve_right hk
    refine ⟨declared, hs.1, ?_⟩
    rw [comment?_eq_none hk]
    have hon := hs.2.advance (by rw [hnl]; nofun) (by rw [hnl]; nofun) (w := [newline])
      (c := .atLine level inBody declared) (by rw [hnl]; rfl)
    exact hon.whole

/-! ### Assignments -/

/-- The scribe after the target of an assignment. -/
structure AfterTarget (fn : String → Bool) (c c' : Scribe) : Prop extends Prolongs fn c c' where
  declared : c'.declared = c.declared
  assign : ∀ literal blank, stroke fn c' .assign literal blank =
    some ([space, sign .assign], c.goTo (.operand true .space))

theorem AfterTarget.named {name : String} (hfn : d.fn name = false) (hname : name ∈ c.declared) :
    AfterTarget d.fn c (c.goTo (.named name)) where
  index literal := by simp [stroke, namedStroke, hfn, hname, Scribe.goTo, Scribe.enter]
  dot literal := by simp [stroke, namedStroke, hname, Scribe.goTo]
  declared := rfl
  assign literal blank := by simp [stroke, namedStroke, hname, Scribe.goTo]

theorem AfterTarget.operator (hframes : c.frames = []) : AfterTarget d.fn c (c.goTo .operator) where
  toProlongs := .operator d.fn c
  declared := rfl
  assign literal blank := by
    have hc : (c.goTo .operator).frames = [] := hframes
    have hgo : ({ c with frames := [], place := .operand true .space } : Scribe) = c.goTo (.operand true .space) := by
      rw [← hframes]
      rfl
    simp only [stroke, Scribe.goTo_place, operatorStroke, hc, Scribe.spaced]
    simpa [BinaryOp.ofToken?, closingStroke, Scribe.goTo] using hgo

theorem targetWithin_writes (words : List Word) (hknows : d.Knows) (hframes : c.frames = []) (token : Token)
    (fuel : Nat) (target : Expr) :
    Gets (fun s => ∃ c', AfterTarget d.fn c c' ∧ On d σ n (p.add (words ++ expr c.exprLevel target) c') s)
      (targetWithin token fuel target) fun e s =>
        ∃ c', AfterTarget d.fn c c' ∧ On d σ n (p.add (words ++ expr c.exprLevel e) c') s := by
  induction fuel generalizing target with
  | zero => exact .pure fun _ => id
  | succ fuel ih =>
    have hagain {e : Expr} (s : State) (hs : Wrote d σ (n + 1) p c (words ++ expr c.exprLevel e) s) :
        ∃ c', AfterTarget d.fn c c' ∧ On d σ n (p.add (words ++ expr c.exprLevel e) c') s :=
      ⟨_, .operator hframes, hs.toOn.mono (Nat.le_succ _)⟩
    refine .lookThen fun k => ?_
    split
    · refine .ifFail (.failAt _ _) fun _ => Gets.bind ?_ ih
      refine ((Parses.chosen (C := AfterTarget d.fn c) (.operator hframes) fun c' haims =>
        indexOrSlice_writes (p := p) (σ := σ) (n := n) words hknows (nested_writes hknows) (Nat.zero_le _)
          haims.toProlongs target false).conseq ?_ fun _ _ => id).conseq (fun _ => id) fun e s ⟨e', he, hs⟩ =>
            ⟨e', he, hagain s hs⟩
      rintro s ⟨⟨c', haims, hon⟩, hk⟩
      exact ⟨c', haims, hon, hk⟩
    · refine Gets.bind ?_ ih
      refine ((Parses.chosen (C := AfterTarget d.fn c) (.operator hframes) fun c' haims =>
        field_writes (p := p) (σ := σ) (n := n) words haims.toProlongs target).conseq ?_ fun _ _ => id).conseq
          (fun _ => id) fun e s ⟨e', he, hs⟩ => ⟨e', he, hagain s hs⟩
      rintro s ⟨⟨c', haims, hon⟩, hk⟩
      exact ⟨c', haims, hon, hk⟩
    · exact .pure fun s hs => hs.1

theorem assignTarget_writes (level : Nat) (inBody : Bool) (rows : List Row) (declared : List String)
    (hknows : d.Knows) :
    Gets (fun s => LineStart d σ n level inBody rows declared s ∧ s.cur.kind = .ident ∧ d.fn s.cur.literal = false)
      assignTarget fun e s => Plain d declared ∧ ∃ c', AfterTarget d.fn (.plain level inBody declared) c' ∧
        On d σ (n + 1) (⟨rows, indent level ++ expr level e, c'⟩ : Page) s := by
  obtain ⟨c, hc⟩ : ∃ c, c = Scribe.plain level inBody declared := ⟨_, rfl⟩
  rw [← hc]
  refine .lookThen fun token => .moveTo (Q := fun s => Plain d declared ∧ d.fn token.literal = false ∧
    On d σ (n + 1) (⟨rows, indent level ++ [ident token.literal], c.goTo (.named token.literal)⟩ : Page) s)
    State.moves_advance ?_ ?_
  · rintro s ⟨⟨hs, hk, hfn⟩, rfl⟩
    subst hc
    exact ⟨hs.1, hfn, hs.step hk ⟨nofun, nofun⟩ rfl nofun⟩
  refine .ifFail (.failAt _ _) fun _ => .liftBind (Parses.readVar? (Q := fun r s => ∀ v, r = some v → Plain d declared ∧
    ∃ c', AfterTarget d.fn c c' ∧ On d σ (n + 1) (⟨rows, indent level ++ expr level (.ofVar v token), c'⟩ : Page) s) ?_
      fun _ _ => nofun) fun r => ?_
  · rintro s v ss ⟨hplain, hfn, hon⟩ hread w hw
    cases hw
    obtain ⟨hmem, hname, hnames⟩ := Scopes.names_read? hread
    have hdeclared : token.literal ∈ c.declared := hon.scopes hmem
    refine ⟨hplain, _, .named hfn hdeclared, ?_⟩
    have hvar : expr level (.ofVar v token) = [ident token.literal] := by rw [← hname]; rfl
    rw [hvar]
    exact hon.withScopes (hnames ▸ hon.scopes)
  cases r with
  | none => exact (Aborts.failAt _ _).gets
  | some v =>
    have hlevel : c.exprLevel = level := by rw [hc]; rfl
    refine .state fun t => Gets.conseq ((targetWithin_writes (p := (⟨rows, [], c⟩ : Page)) (c := c)
      (σ := σ) (n := n + 1) (indent level) hknows (by rw [hc]; rfl) token t.fuel (.ofVar v token)).frame
      (φ := Plain d declared)) ?_ ?_
    · rintro s ⟨hs, -⟩
      obtain ⟨hplain, c', haims, hon⟩ := hs v rfl
      exact ⟨hplain, c', haims, hlevel.symm ▸ hon⟩
    · rintro e s ⟨hplain, c', haims, hon⟩
      exact ⟨hplain, c', haims, hlevel ▸ hon⟩

theorem assignment_writes (hknows : d.Knows) (hsp : σ.headD false = false) :
    Gets (fun s => Lines d σ n level inBody rows s ∧ s.cur.kind = .ident) assignment
      (Adds d σ (n + 1) level inBody rows) := by
  refine Gets.line (fun s hs => by rw [hs]; nofun) fun declared => ?_
  refine .orNextLine <| .lookThen fun token => .lookThen fun isFunc => .ifFail (.fail _) fun hfn => ?_
  refine Gets.bind ((assignTarget_writes (σ := σ) (n := n) level inBody rows declared hknows).conseq ?_ fun _ _ => id)
    fun target => ?_
  · rintro s ⟨⟨⟨hs, hk⟩, rfl⟩, rfl⟩
    refine ⟨hs, hk, ?_⟩
    rw [← hs.2.isFunc hknows]
    exact Bool.eq_false_iff.2 hfn
  obtain ⟨c, hc⟩ : ∃ c, c = (Scribe.plain level inBody declared).goTo (.operand true .space) := ⟨_, rfl⟩
  refine .liftBind (Parses.expectThen .assign (Q := fun _ s => Plain d declared ∧ s.cur.kind = .assign ∧
    ∃ c', AfterTarget d.fn (.plain level inBody declared) c' ∧
      On d σ (n + 1) (⟨rows, indent level ++ expr level target, c'⟩ : Page) s) fun s hs hk =>
      ⟨hs.1, hk, hs.2⟩) fun _ => ?_
  refine .moveTo (Q := fun s => Plain d declared ∧
    On d σ (n + 1) (⟨rows, indent level ++ expr level target ++ [space, sign .assign], c⟩ : Page) s)
    State.moves_advance ?_ ?_
  · rintro s ⟨hplain, hk, c', haims, hon⟩
    have hstep := hon.step (by rw [hk]; nofun) (by rw [hk]; nofun) (w := [space, sign .assign]) (c := c)
      (by rw [hk, hc]; exact haims.assign _ _) (by rw [hc]; nofun)
    exact ⟨hplain, hstep.toOn.mono (Nat.le_succ _)⟩
  refine Gets.bind (assigned_writes level hknows hsp (by rw [hc]; rfl) (by rw [hc]; rfl)
    (by rw [hc]; rfl)).frame fun value => ?_
  obtain ⟨words, hwords⟩ : ∃ words, words = indent level ++ expr level target ++ [space, sign .assign] ++
    space :: expr level value := ⟨_, rfl⟩
  refine .unlessReport <| .liftBind (Parses.expectEnd (Q := fun _ => LineDone d σ (n + 1) rows words c) ?_) fun _ => ?_
  · rintro s ⟨-, hplain, hon⟩ hend
    subst hc hwords
    exact ⟨hplain, hend, hon⟩
  refine .toNextLine fun comment => .pure fun s hs => ?_
  subst hc hwords
  simpa [Adds, stmtRows, row, stmt, lastKind, expr_wrap] using hs

/-! ### Calls -/

theorem callStmt_writes (hknows : d.Knows) :
    Gets (fun s => Lines d σ n level inBody rows s ∧ s.cur.kind = .ident ∧ d.fn s.cur.literal) callStmt
      (Adds d σ (n + 1) level inBody rows) := by
  refine Gets.line (fun s hs => by rw [hs.1]; nofun) fun declared => ?_
  obtain ⟨c, hc⟩ : ∃ c, c = Scribe.plain level inBody declared := ⟨_, rfl⟩
  have hcall := call_writes (d := d) (σ := σ) (n := n) (p := blankPage rows level inBody declared)
    (c := c.enter .args .argument) (g := fun name => (indent level ++ [ident name], c.goTo (.named name)))
    hknows (nested_writes hknows) (Nat.zero_le _) rfl (fun _ _ _ => by subst hc; rfl) fun name hfn => by
      refine ⟨nofun, rfl, fun kind literal blank hk => ?_⟩
      have hnamed : stroke d.fn (c.goTo (.named name)) kind literal blank =
          betweenStroke d.fn (c.enter .args (.named name)) kind literal := by
        simp only [stroke, Scribe.goTo_place, namedStroke, hfn, if_true]
        subst hc
        cases kind <;> first | rfl | cases hk
      rw [hnamed, betweenStroke_operand (c := c.enter .args (.named name)) rfl hk]
      cases kind <;> rfl
  refine .orNextLine <| Gets.bind ((hcall.frame (φ := Plain d declared)).conseq (fun s hs => ⟨hs.1.1, hs.1.2, hs.2⟩)
    fun _ _ => id) fun r => ?_
  obtain ⟨words, hwords⟩ : ∃ words, words = indent level ++ [ident r.name] ++ arguments level r.args := ⟨_, rfl⟩
  have hfinishes {c' : Scribe} (h : c' = c.goTo (.named r.name) ∧ d.fn r.name ∨
    c' = (c.enter .args .argument).goTo .operator) :
      Finishes d.fn c c' := by
    rcases h with ⟨rfl, hfn⟩ | rfl
    · refine ⟨rfl, fun kind literal blank hk => ?_⟩
      simp only [stroke, Scribe.goTo_place, namedStroke, hfn, if_true]
      subst hc
      cases kind <;> first | rfl | cases hk
    · exact .arguments _ (by rw [hc]; rfl) .argument
  refine .liftBind (Parses.expectEnd (Q := fun _ => LineDone d σ (n + 1) rows words c) ?_) fun _ => ?_
  · rintro s ⟨hplain, hfn, hon⟩ hend
    refine ⟨by subst hc; exact hplain, hend, ?_⟩
    have hlevel : (c.enter .args .argument).exprLevel = level := by subst hc; rfl
    rcases hon with ⟨hnil, hon⟩ | hon
    · refine ⟨_, hfinishes (.inl ⟨rfl, hfn⟩), rfl, ?_⟩
      rw [hwords, hnil, arguments, List.append_nil]
      exact hon
    · refine ⟨_, hfinishes (.inr rfl), rfl, ?_⟩
      rw [hwords]
      exact hlevel ▸ hon
  refine .toNextLine fun comment => .pure fun s hs => ?_
  subst hc hwords
  simpa [Adds, stmtRows, row, stmt, lastKind] using hs

/-! ### Ends of blocks -/

theorem breakStmt_writes : Parses (fun s => Lines d σ n level inBody rows s ∧ s.cur.kind = .break) breakStmt
    (Adds d σ (n + 1) level inBody rows) := by
  refine Parses.line (fun s hs => by rw [hs]; nofun) fun declared => ?_
  obtain ⟨c, hc⟩ : ∃ c, c = (Scribe.plain level inBody declared).goTo .finish := ⟨_, rfl⟩
  have hend (token : Token) : Parses (fun s => LineStart d σ n level inBody rows declared s ∧ s.cur.kind = .break) (do
      advance
      expectLineEnd
      let comment ← comment?
      nextLine
      return .brk token comment) (Adds d σ (n + 1) level inBody rows) := by
    refine Parses.bind (Parses.moveTo (Q := fun _ s => Plain d declared ∧
      On d σ (n + 1) (⟨rows, indent level ++ [sign .break], c⟩ : Page) s) State.moves_advance ?_) fun _ => ?_
    · rintro s ⟨hs, hk⟩
      subst hc
      exact ⟨hs.1, hs.step hk ⟨nofun, nofun⟩ rfl nofun⟩
    refine Parses.bind (Parses.expectEnd (Q := fun _ => LineDone d σ (n + 1) rows (indent level ++ [sign .break]) c) ?_)
      fun _ => ?_
    · rintro s ⟨hplain, hon⟩ hended
      exact ⟨by subst hc; exact hplain, hended, c, .finish_place _ (by subst hc; rfl), rfl, hon⟩
    refine .toNextLine fun comment => .pure fun s hs => ?_
    subst hc
    simpa [Adds, stmtRows, row, stmt, lastKind] using hs
  refine .lookThen fun token => Parses.bind (Parses.state (Q := fun _ s =>
    LineStart d σ n level inBody rows declared s ∧ s.cur.kind = .break) fun s hs => hs.1) fun t => ?_
  dsimp only
  split
  · exact hend token
  · exact (Parses.reportedHere (Q := fun _ _ => False)).bind fun _ => (hend token).never

theorem returnStmt_writes (hknows : d.Knows) (hsp : σ.headD false = false) :
    Parses (fun s => Lines d σ n level inBody rows s ∧ s.cur.kind = .return) returnStmt
      (Adds d σ (n + 1) level inBody rows) := by
  refine Parses.line (fun s hs => by simp [hs]) fun declared => ?_
  obtain ⟨c, hc⟩ : ∃ c, c = (Scribe.plain level inBody declared).goTo (.operand true .space) := ⟨_, rfl⟩
  obtain ⟨lead, hlead⟩ : ∃ lead, lead = indent level ++ [sign .return] := ⟨_, rfl⟩
  have hend (token : Token) (value : Option Expr) (words : List Word)
      (hwords : words = lead ++ (value.toList.flatMap fun e => space :: expr level e)) :
      Parses (LineDone d σ (n + 1) rows words c) (do
        let comment ← comment?
        nextLine
        return .ret token comment value) (Adds d σ (n + 1) level inBody rows) := by
    refine .toNextLine fun comment => .pure fun s hs => ?_
    subst hc hwords hlead
    cases value <;> simpa [Adds, stmtRows, row, stmt, lastKind] using hs
  have hcheck (token valueToken : Token) (value : Option Expr) (ty : Ty) (words : List Word)
      (hwords : words = lead ++ (value.toList.flatMap fun e => space :: expr level e)) :
      Parses (LineDone d σ (n + 1) rows words c) (returnEnd token valueToken value ty)
        (Adds d σ (n + 1) level inBody rows) := by
    refine Parses.bind (Parses.state (Q := fun _ => LineDone d σ (n + 1) rows words c) fun s hs => hs) fun t => ?_
    have hnever := (hend token value words hwords).never (R := Adds d σ (n + 1) level inBody rows)
    dsimp only
    split
    · exact (Parses.reportedAt (Q := fun _ _ => False)).bind fun _ => hnever
    next result _ =>
    split
    · refine hend token (value.map (Expr.wrap result)) words ?_
      rw [hwords]
      cases value <;> simp [expr_wrap]
    · split
      · exact (Parses.reportedAt (Q := fun _ _ => False)).bind fun _ => hnever
      · exact (Parses.reportedAt (Q := fun _ _ => False)).bind fun _ => hnever
  refine .lookThen fun token => Parses.bind (Parses.moveTo (Q := fun _ s => Plain d declared ∧
    On d σ (n + 1) (⟨rows, lead, c⟩ : Page) s) State.moves_advance ?_) fun _ => ?_
  · rintro s ⟨⟨hs, hk⟩, -⟩
    subst hc hlead
    exact ⟨hs.1, hs.step hk ⟨by simp, by simp⟩ rfl (by simp)⟩
  refine .lookThen fun valueToken => .lookThen fun ended => ?_
  dsimp only
  split
  · next hended =>
    refine (hcheck token valueToken none _ lead (by simp)).conseq ?_ fun _ _ => id
    rintro s ⟨⟨⟨hplain, hon⟩, -⟩, rfl⟩
    refine ⟨by subst hc; exact hplain, hended, c, ⟨rfl, fun kind literal blank hk => ?_⟩, rfl, hon⟩
    rw [stroke_operand_close (show c.place = .operand true .space by rw [hc]; rfl) (closesOperand_of_endsLine hk)
      (by simp),
      closingStroke_nil (by rw [hc]; rfl) hk]
  · refine Parses.bind (((assigned_writes level hknows hsp (by rw [hc]; rfl) (by rw [hc]; rfl)
      (by rw [hc]; rfl)).frame (φ := Plain d declared)).conseq (fun s hs => hs.1.1) fun _ _ => id) fun value => ?_
    cases value with
    | none => exact (hcheck token valueToken none _ lead (by simp)).conseq (fun s hs => by simp at hs) fun _ _ => id
    | some e =>
      refine Parses.bind (Parses.expectEnd (Q := fun _ => LineDone d σ (n + 1) rows
        (lead ++ space :: expr level e) c) ?_)
        fun _ => hcheck token valueToken (some e) _ _ (by simp)
      rintro s ⟨e', he, hplain, hon⟩ hended
      cases he
      exact ⟨by subst hc; exact hplain, hended, hon⟩

end TinyScript.Parsing
