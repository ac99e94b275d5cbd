import TinyScript.Proofs.Parsing.Spelling

/-!
# Operator precedence

An expression that is read is layered, and it is written with the words of the tokens that are passed
(`Spells`). The loop over operators ends before one that binds at most as strongly as the last, so no
operator that binds more strongly is left to what stands around (`operatorsWithin_spells`).
-/

namespace TinyScript

namespace Parsing

/-! ### Types and layout -/

section
variable {s : State}

theorem typeWithin_spells (fuel : Nat) (hs : s.Lexed) :
    Spells s (typeWithin fuel) fun ty ws _ => ty.kind ≠ .illegal → ws = [] := by
  induction fuel generalizing s with
  | zero => exact .pure hs fun h => absurd rfl h
  | succ fuel ih =>
    have hcomposite (close : TokenKind) (hclose : ∀ literal pos, Token.word? ⟨close, literal, pos⟩ = none)
        (f : Ty → Ty) {t : State} (ht : t.Lexed) : Spells t (do
        if (← kind) ≠ close then return .illegal
        advance
        let elem ← typeWithin fuel
        return if elem.kind = .illegal then .illegal else f elem) fun ty ws _ =>
          ty.kind ≠ .illegal → ws = [] := by
      refine .look (g := fun t => t.cur.kind) (.ite (fun _ => .pure ht fun h => absurd rfl h) fun hk => ?_)
      have hword := word?_eq_none (not_not.1 hk) hclose
      refine Spells.step ht.passes_advance ht.wordsTo_advance ?_
      refine (ih ht.passes_advance.lexed).bind fun elem u hu helem => .pure hu.lexed fun hlegal => ?_
      have hne : elem.kind ≠ .illegal := by
        intro heq
        rw [if_pos heq] at hlegal
        exact hlegal rfl
      rw [hword, helem hne]
      rfl
    refine .look (g := fun s => s.cur.kind) (Spells.step hs.passes_advance hs.wordsTo_advance ?_)
    have ht := hs.passes_advance.lexed
    split
    case h_7 => exact .pure ht fun h => absurd rfl h
    case h_5 h =>
      rw [word?_eq_none h fun _ _ => rfl]
      exact hcomposite .rBracket (fun _ _ => rfl) .array ht
    case h_6 h =>
      rw [word?_eq_none h fun _ _ => rfl]
      exact hcomposite .rCurly (fun _ _ => rfl) .map ht
    all_goals
      next h =>
      rw [word?_eq_none h fun _ _ => rfl]
      exact .pure ht fun _ => rfl

theorem type_spells (hs : s.Lexed) : Spells s type fun ty ws _ => ty.kind ≠ .illegal → ws = [] :=
  .look (g := id) (typeWithin_spells s.fuel hs)

theorem State.Lexed.line_ends (hs : s.Lexed) (h : s.cur.kind = .comment) :
    s.advanceOne.cur.kind = .nl ∨ s.advanceOne.cur.kind = .eof := by
  have hlt : s.pos < s.tokens.size := hs.toInRange.lt_size (by rw [h]; nofun)
  have hone : s.advanceOne.cur = s.tokenAt (s.pos + 1) := by rw [State.advanceOne, if_pos hlt]; rfl
  rw [hone]
  by_cases hnext : s.pos + 1 < s.tokens.size
  · have hcur : s.cur = s.tokens.toList.get ⟨s.pos, hlt⟩ := by
      simp [State.cur, State.tokenAt, Array.getElem?_eq_getElem hlt]
    have htoken : s.tokenAt (s.pos + 1) = s.tokens.toList.get ⟨s.pos + 1, hnext⟩ := by
      simp [State.tokenAt, Array.getElem?_eq_getElem hnext]
    rw [hcur] at h
    rw [htoken]
    exact List.isChain_iff_getElem.1 hs.lineEnds s.pos hnext h
  · refine .inr ?_
    rw [State.tokenAt, Array.getElem?_eq_none (Nat.le_of_not_lt hnext)]
    exact hs.eof

theorem layoutWithin_spells (fuel : Nat) (done : Array LayoutItem) (hs : s.Lexed) :
    Spells s (layoutWithin fuel done) fun _ ws _ => ws = [] := by
  induction fuel generalizing done s with
  | zero => exact .pure hs rfl
  | succ fuel ih =>
    have hone := hs.passes_advanceOne.lexed
    refine .look (g := State.cur) ?_
    split
    · next hk =>
      refine Spells.step hs.passes_advanceOne hs.wordsTo_advanceOne ?_
      rw [word?_eq_none hk fun _ _ => rfl]
      exact ih _ hone
    · next hk =>
      -- the token after a comment is dropped, but it is the end of the line
      refine Spells.step hs.passes_advanceOne hs.wordsTo_advanceOne ?_
      rw [word?_eq_none hk fun _ _ => rfl]
      refine (Spells.expect hone .nl).bind fun _ t ht hstay => ?_
      have hword : t.cur.word? = none := by
        rw [hstay.2.1]
        rcases hs.line_ends hk with hnl | heof
        · exact word?_eq_none hnl fun _ _ => rfl
        · exact word?_eq_none heof fun _ _ => rfl
      rw [hstay.1]
      refine Spells.step ht.lexed.passes_advanceOne ht.lexed.wordsTo_advanceOne ?_
      rw [hword]
      exact ih _ ht.lexed.passes_advanceOne.lexed
    · next hk =>
      refine Spells.step hs.passes_advanceOne hs.wordsTo_advanceOne ?_
      rw [word?_eq_none hk fun _ _ => rfl]
      exact ih _ hone
    · exact .pure hs rfl

theorem layoutItems_spells (done : Array LayoutItem) (hs : s.Lexed) :
    Spells s (layoutItems done) fun _ ws _ => ws = [] :=
  .look (g := id) (layoutWithin_spells s.fuel done hs)

/-! ### Expressions -/

/-- An expression is layered, and it is written with the given words. -/
structure Tells (e : Expr) (ws : List ExprWord) : Prop where
  words : e.words = ws
  layered : e.Layered

/-- The same of several expressions. -/
structure TellsAll (es : List Expr) (ws : List ExprWord) : Prop where
  words : Expr.wordsAll es = ws
  layered : Expr.LayeredAll es

structure TellsPairs (ps : List (String × Expr)) (ws : List ExprWord) : Prop where
  words : Expr.wordsPairs ps = ws
  layered : Expr.LayeredPairs ps

/-- The same of an expression that can be left out. -/
structure TellsOption (e : Option Expr) (ws : List ExprWord) : Prop where
  words : Expr.wordsOption e = ws
  layered : Expr.LayeredOption e

variable {e f : Expr} {es fs : List Expr} {ps qs : List (String × Expr)} {ws vs : List ExprWord}

theorem Tells.retell (h : Tells e ws) (hf : e.Retells f) : Tells f ws :=
  ⟨hf.words.trans h.words, hf.layered h.layered⟩

theorem TellsAll.retell (h : TellsAll es ws) (hf : Expr.RetellsAll es fs) : TellsAll fs ws :=
  ⟨hf.words.trans h.words, hf.layered h.layered⟩

theorem TellsPairs.retell (h : TellsPairs ps ws) (hf : Expr.RetellsPairs ps qs) : TellsPairs qs ws :=
  ⟨hf.words.trans h.words, hf.layered h.layered⟩

theorem TellsAll.push {done : Array Expr} (h : TellsAll done.toList ws) (he : Tells e vs) :
    TellsAll (done.push e).toList (ws ++ vs) := by
  rw [Array.toList_push]
  refine ⟨?_, (Expr.layeredAll_append _ _).2 ⟨h.layered, he.layered, trivial⟩⟩
  rw [Expr.wordsAll_append, h.words, ← he.words]
  exact congrArg _ (List.append_nil _)

theorem TellsPairs.push {done : Array (String × Expr)} (key : String) (h : TellsPairs done.toList ws)
    (he : Tells e vs) : TellsPairs (done.push (key, e)).toList (ws ++ .name key :: vs) := by
  rw [Array.toList_push]
  refine ⟨?_, (Expr.layeredPairs_append _ _).2 ⟨h.layered, he.layered, trivial⟩⟩
  rw [Expr.wordsPairs_append, h.words, ← he.words]
  exact congrArg (ws ++ ExprWord.name key :: ·) (List.append_nil _)

theorem tells_var (m : Mark) (name : String) : Tells (.var m name) [.name name] := ⟨rfl, trivial⟩

theorem tells_num (m : Mark) (x : Float) : Tells (.num m x) [.num x] := ⟨rfl, trivial⟩

theorem tells_str (m : Mark) (text : String) : Tells (.str m text) [.str text] := ⟨rfl, trivial⟩

theorem tells_bool (m : Mark) (b : Bool) : Tells (.bool m b) [.bool b] := ⟨rfl, trivial⟩

theorem tellsAll_nil : TellsAll [] [] := ⟨rfl, trivial⟩

theorem tellsPairs_nil : TellsPairs [] [] := ⟨rfl, trivial⟩

theorem tellsOption_none : TellsOption none [] := ⟨rfl, trivial⟩

theorem Tells.some (h : Tells e ws) : TellsOption (some e) ws := ⟨h.words, h.layered⟩

theorem TellsAll.array (h : TellsAll es ws) (m : Mark) (layout : List LayoutItem) :
    Tells (.array m layout es) ws :=
  ⟨h.words, h.layered⟩

theorem TellsPairs.map (h : TellsPairs ps ws) (m : Mark) (layout : List LayoutItem) :
    Tells (.map m layout ps) ws :=
  ⟨h.words, h.layered⟩

theorem Tells.group (h : Tells e ws) (m : Mark) : Tells (.group m e) ws :=
  ⟨h.words, h.layered⟩

/-- Reads an expression of which nothing but its words and its layers matters to what is around it. -/
abbrev SpellsExpr (s : State) (m : Attempt Expr) : Prop :=
  SpellsTry s m fun e ws _ => Tells e ws

/-- The token after an expression ends it, or binds at most as strongly as `n`. -/
def State.Stops (s : State) (n : Nat) : Prop :=
  (atExprEnd.run s).1 ∨ (precedenceOf s.cur.kind).level ≤ n

theorem level_precedenceOf_le (k : TokenKind) : (precedenceOf k).level ≤ Precedence.index.level := by
  cases k <;> decide

/-- Operators with operands on both sides bind less strongly than the others. -/
theorem precedenceOf_eq_index {k : TokenKind} (hop : BinaryOp.ofToken? k = none)
    (hlevel : 0 < (precedenceOf k).level) : precedenceOf k = .index ∧ (k = .lBracket ∨ k = .dot) := by
  cases k <;> simp_all [BinaryOp.ofToken?, precedenceOf, Precedence.level]

/-- What an expression starts with, up to the operators after it. -/
structure Operand (e : Expr) (ws : List ExprWord) (t : State) : Prop extends Tells e ws where
  level : Precedence.unary.level ≤ e.level
  stops : t.Stops e.level

/-- An expression that binds more strongly than `p`, or is an operand, up to where it ends. -/
structure Nests (p : Precedence) (e : Expr) (ws : List ExprWord) (t : State) : Prop extends Tells e ws where
  level : min (p.level + 1) Precedence.unary.level ≤ e.level
  stops : t.Stops p.level

/-- An expression without an operator on top ends with any operator. -/
theorem Tells.operand (h : Tells e ws) (hlevel : e.level = Precedence.index.level) (t : State) :
    Operand e ws t where
  toTells := h
  level := by rw [hlevel]; decide
  stops := .inr (by rw [hlevel]; exact level_precedenceOf_le _)

theorem reportArguments_silent (name : String) (index : Nat) (params : List Var) (args : List Expr) :
    Silent (reportArguments name index params args) := by
  induction params generalizing index args with
  | nil => exact .pure
  | cons v params ih =>
    cases args with
    | nil => exact .pure
    | cons e args =>
      unfold reportArguments
      refine .ite (ih _ _) fun s hs => ?_
      exact (Silent.reportAt _ _).andThen hs fun t ht => ih _ _ t ht.lexed

/-- Arguments are only retyped. -/
theorem checkArguments_spells (signature : Signature) (args : List Expr) (hs : s.Lexed) :
    Spells s (checkArguments signature args) fun args' ws _ => ws = [] ∧ Expr.RetellsAll args args' := by
  unfold checkArguments
  split
  · next rest _ =>
    have hreports : Silent (args.forM fun e => do
        unless takesArgument rest.ty e.ty do
          reportAt e.token (.variadicType signature.name rest.ty e.ty)) :=
      .forM (fun e => .ite .pure (.reportAt _ _)) _
    exact hreports.andThen hs fun t ht => .pure ht.lexed ⟨rfl, Expr.retellsAll_map_wrap rest.ty args⟩
  · dsimp only
    refine .ite (fun _ => ?_) fun hlength => ?_
    · exact .look (g := id) ((Silent.reportAt _ _).andThen hs fun t ht => .pure ht.lexed ⟨rfl, .refl _⟩)
    · refine (reportArguments_silent _ _ _ _).andThen hs fun t ht => .pure ht.lexed ⟨rfl, ?_⟩
      exact Expr.retellsAll_zipWith_wrap args _ (not_not.1 hlength)

/-! ### Operands without parts -/

theorem numLiteral_spells (hs : s.Lexed) (hk : s.cur.kind = .numLit) : SpellsTry s numLiteral Operand := by
  have hword : s.cur.word? = (Decimal.readFloat? s.cur.literal).map .num := by rw [Token.word?, hk]
  refine .look (g := State.cur) (.advance hs ?_)
  have ht := hs.passes_advance.lexed
  cases hvalue : Decimal.readFloat? s.cur.literal with
  | none => exact .failAt ht _ _
  | some value =>
    refine .pure ht ?_
    rw [hword, hvalue]
    exact (tells_num _ value).operand rfl _

theorem readVar?_spells (name : String) (hs : s.Lexed) :
    Spells s (readVar? name) fun r ws _ => ws = [] ∧ ∀ v, r = some v → v.name = name := by
  have hrun := run_readVar? name s
  cases hread : s.scopes.read? name with
  | none =>
    rw [hread] at hrun
    refine ⟨?_, ?_, ?_⟩ <;> rw [hrun]
    · exact hs.passes
    · exact s.wordsTo_self
    · exact nofun
  | some r =>
    rw [hread] at hrun
    refine ⟨?_, ?_, ?_⟩ <;> rw [hrun]
    · exact hs.passesTo ⟨rfl, rfl, rfl, rfl⟩ rfl rfl ⟨rfl, rfl, Nat.le_refl _, hs.pos_le⟩
    · exact s.wordsTo_self
    · rintro v ⟨⟩
      exact (Scopes.of_read? hread).2.1

theorem readVariable_spells (hs : s.Lexed) (hk : s.cur.kind = .ident) : SpellsTry s readVariable Operand := by
  have hword : s.cur.word? = some (.name s.cur.literal) := by rw [Token.word?, hk]
  refine .look (g := State.cur) (.advance hs ?_)
  have ht := hs.passes_advance.lexed
  refine .ifFail (.failAt ht _ _) fun _ => .after (readVar?_spells _ ht) fun r u hu hr => ?_
  cases r with
  | none =>
    refine .look (g := fun u => u.isFunc s.cur.literal) ?_
    exact .ite (fun _ => .failAt hu.lexed _ _) fun _ => .failAt hu.lexed _ _
  | some v =>
    refine .pure hu.lexed ?_
    rw [hword, hr.1, ← hr.2 v rfl]
    exact (tells_var _ v.name).operand rfl _

theorem reportOperand_spells (hs : s.Lexed) : Spells s reportOperand fun _ _ _ => True := by
  refine .look (g := id) ?_
  dsimp only
  split
  · refine .ite (fun _ => ?_) fun _ => .ite (fun _ => ?_) fun _ => ?_
    · exact (Spells.report hs _).weaken fun _ _ _ _ _ => trivial
    · exact (Spells.reportAt hs _ _).weaken fun _ _ _ _ _ => trivial
    · exact (Spells.report hs _).weaken fun _ _ _ _ _ => trivial
  · exact (Spells.report hs _).weaken fun _ _ _ _ _ => trivial

/-! ### Operators without operands of their own -/

/-- An operator that binds as strongly as `n` after the expression `left`, up to where what it makes
ends. -/
structure Joins (n : Nat) (left e : Expr) (ws : List ExprWord) (t : State) : Prop where
  tells : Tells e (left.words ++ ws)
  level : e.level = n
  stops : t.Stops n

theorem Tells.joins (left : Expr) {vs : List ExprWord} (h : Tells e (left.words ++ vs))
    (hlevel : e.level = Precedence.index.level) (t : State) :
    Joins Precedence.index.level left e vs t :=
  ⟨h, hlevel, .inr (level_precedenceOf_le _)⟩

theorem requireTightDot_spells (hs : s.Lexed) :
    SpellsTry s requireTightDot fun _ ws t => ws = [] ∧ t = s ∧ (s.tokenAt (s.pos + 1)).kind ≠ .ws := by
  refine .get (.ifFail (.fail hs _) fun _ => .ite (fun _ => .fail hs _) fun hws => ?_)
  exact .pure hs ⟨rfl, rfl, hws⟩

theorem field_spells {left : Expr} (hs : s.Lexed) (hk : s.cur.kind = .dot) (hleft : left.Layered)
    (hlevel : Precedence.index.level ≤ left.level) :
    SpellsTry s (field left) (Joins Precedence.index.level left) := by
  refine .look (g := State.cur) ((requireTightDot_spells hs).bind ?_)
  rintro _ t _ ⟨hws, rfl, -⟩
  rw [hws]
  refine .passOne hs (word?_eq_none hk fun _ _ => rfl) ?_
  have hkey := hs.passes_advanceOne.lexed
  refine .unlessFail (.failAt hkey _ _) fun _ => .look (g := State.cur) ?_
  refine .unlessFail (.failAt hkey _ _) fun hident => .advance hkey (.pure hkey.passes_advance.lexed ?_)
  rw [Token.word?, hident]
  exact Tells.joins left (e := .dot _ left _) ⟨rfl, hlevel, hleft⟩ rfl _

/-- The token after the current one, if it is no blank, is the next one. -/
theorem State.Lexed.cur_advance (hs : s.Lexed) (heof : s.cur.kind ≠ .eof)
    (hws : (s.tokenAt (s.pos + 1)).kind ≠ .ws) : s.advance.cur = s.tokenAt (s.pos + 1) := by
  have hone : s.advanceOne.cur = s.tokenAt (s.pos + 1) := by
    rw [State.advanceOne, if_pos (hs.toInRange.lt_size heof)]
    rfl
  unfold State.advance
  dsimp only
  split
  · exact hone
  · rw [State.skipBlank, if_neg (by rw [hone]; exact hws)]
    exact hone

theorem typeAssertion_spells {left : Expr} (hs : s.Lexed) (hk : s.cur.kind = .dot)
    (hpeek : s.peek.kind = .lParen) (hleft : left.Layered) (hlevel : Precedence.index.level ≤ left.level) :
    SpellsTry s (typeAssertion left) (Joins Precedence.index.level left) := by
  refine .look (g := State.cur) ((requireTightDot_spells hs).bind ?_)
  rintro _ t _ ⟨hws, rfl, hnext⟩
  rw [hws]
  have hpush := hs.pushSpacing false
  have hparen : (t.pushSpacing false).advance.cur.kind = .lParen := by
    rw [hpush.cur_advance (by rw [show (t.pushSpacing false).cur = t.cur from rfl, hk]; nofun) hnext]
    have hpeek' := hpeek
    unfold State.peek at hpeek'
    dsimp only at hpeek'
    rw [if_neg (by simp [hnext])] at hpeek'
    exact hpeek'
  refine .withSpacing hs (.pass hpush (word?_eq_none hk fun _ _ => rfl) ?_)
  have hopen := hpush.passes_advance.lexed
  refine .pass hopen (word?_eq_none hparen fun _ _ => rfl) ?_
  refine .after (type_spells hopen.passes_advance.lexed) fun ty u hu hty => ?_
  extract_lets typeProblem isAny finish rest
  -- what is no type has no result, so the tokens of the type pass no words
  have hnone (h : typeProblem.isNone) : (t.pushSpacing false).advance.advance.wordsTo u = [] := by
    refine hty fun hillegal => ?_
    simp [typeProblem, hillegal] at h
  generalize (t.pushSpacing false).advance.advance.wordsTo u = passed at hnone
  have hrest {v : State} (hv : v.Lexed) : SpellsTry v (rest ()) fun e ws w =>
      Joins Precedence.index.level left e ([] ++ (passed ++ ws)) w.popSpacing := by
    refine .after (Spells.expect hv .rParen) fun closed w hw hclosed => ?_
    rw [hclosed.1]
    extract_lets judge afterClosed
    have hjudge {x : State} (hx : x.Lexed) : SpellsTry x (judge ()) fun e ws w =>
        Joins Precedence.index.level left e ([] ++ (passed ++ ([] ++ ws))) w.popSpacing := by
      refine .unlessFail (.failure hx) fun hall => .pure hx ?_
      simp only [Bool.and_eq_true] at hall
      rw [hnone hall.1.1]
      exact Tells.joins left (e := .assert _ left) ⟨(List.append_nil _).symm, hlevel, hleft⟩ rfl _
    have hafter {x : State} (hx : x.Lexed) : SpellsTry x (afterClosed ()) fun e ws w =>
        Joins Precedence.index.level left e ([] ++ (passed ++ ([] ++ ws))) w.popSpacing := by
      refine .ite (fun _ => hjudge hx) fun _ => ?_
      refine .after (Spells.reportAt hx _ _) fun _ y hy hstay => ?_
      rw [hstay.1]
      exact hjudge hy.lexed
    refine .ite (fun htrue => ?_) fun _ => hafter hw.lexed
    obtain ⟨hclose, rfl⟩ := hclosed.2.2 htrue
    exact .passOne hw.lexed (word?_eq_none hclose fun _ _ => rfl) (hafter hw.lexed.passes_advanceOne.lexed)
  clear hnone
  cases typeProblem with
  | none => exact hrest hu.lexed
  | some problem =>
    refine .after (Spells.reportAt hu.lexed _ _) fun _ y hy hstay => ?_
    rw [hstay.1]
    exact hrest hy.lexed

end

section
variable {self : Nested} {s : State} (h : ∀ (s : State) (p : Precedence), s.Lexed → SpellsTry s (self p) (Nests p))
include h

theorem spacedExpr_spells (hs : s.Lexed) : SpellsExpr s (spacedExpr self) :=
  .withSpacing hs (SpellsTry.weaken (h _ _ (hs.pushSpacing true)) fun _ _ _ _ he => he.toTells)

theorem exprListWithin_spells (fuel : Nat) {done : Array Expr} {ws : List ExprWord} (hs : s.Lexed)
    (hdone : TellsAll done.toList ws) :
    SpellsTry s (exprListWithin self fuel done) fun es vs _ => TellsAll es (ws ++ vs) := by
  induction fuel generalizing s done ws with
  | zero => exact .pure hs (by rw [List.append_nil]; exact hdone)
  | succ fuel ih =>
    have hround : SpellsTry s (do
        let e ← spacedExpr self
        skipBlank
        exprListWithin self fuel (done.push e)) fun es vs _ => TellsAll es (ws ++ vs) := by
      refine (spacedExpr_spells h hs).bind fun e t ht he => ?_
      refine SpellsTry.after (m := skipBlank) (Q := fun _ ws _ => ws = []) ?_ fun _ u hu hws => ?_
      · exact ⟨ht.lexed.passes_skipBlank, ht.lexed.wordsTo_skipBlank⟩
      · rw [hws]
        simp only [List.nil_append, ← List.append_assoc]
        exact ih hu.lexed (hdone.push he)
    have hend : SpellsTry s (pure done.toList) fun es vs _ => TellsAll es (ws ++ vs) :=
      .pure hs (by rw [List.append_nil]; exact hdone)
    refine SpellsTry.after (m := atListEnd) (Q := fun _ ws t => ws = [] ∧ t = s) ?_ fun ended t _ ht => ?_
    · have hstate := atListEnd_state s
      refine ⟨?_, ?_, hstate⟩
      · rw [hstate]; exact hs.passes
      · rw [hstate]; exact s.wordsTo_self
    · obtain ⟨hws, rfl⟩ := ht
      rw [hws]
      exact .ite (fun _ => hend) fun _ => hround

theorem exprList_spells (hs : s.Lexed) : SpellsTry s (exprList self) fun es ws _ => TellsAll es ws :=
  .get (exprListWithin_spells h s.fuel hs (tellsAll_nil : TellsAll (#[] : Array Expr).toList []))

/-- A call is read from the token of its name on. -/
theorem call_spells (hs : s.Lexed) (hident : s.cur.kind = .ident) :
    SpellsTry s (call self) fun c ws _ =>
      Expr.LayeredAll c.args ∧ ws = .name c.name :: Expr.wordsAll c.args := by
  have hword : s.cur.word? = some (.name s.cur.literal) := by rw [Token.word?, hident]
  refine .look (g := State.cur) (.get ?_)
  split
  · next signature _ =>
    refine .advance hs ((exprList_spells h hs.passes_advance.lexed).bind fun args t ht hargs => ?_)
    refine .after (checkArguments_spells signature args ht.lexed) fun args' u hu hargs' => ?_
    refine .pure hu.lexed ⟨(hargs.retell hargs'.2).layered, ?_⟩
    rw [hword, hargs'.1, ← (hargs.retell hargs'.2).words]
    simp
  · exact .failure hs

theorem topLevel_spells (hs : s.Lexed) : SpellsExpr s (topLevel self) := by
  refine .look (g := State.cur) (.look (g := fun t => t.isFunc s.cur.literal) (.ite (fun hcall => ?_) fun _ => ?_))
  · have hident : s.cur.kind = .ident := by simp_all
    refine (call_spells h hs hident).bind fun c t ht hc => .pure ht.lexed ⟨?_, hc.1⟩
    rw [hc.2, List.append_nil]
    rfl
  · exact SpellsTry.weaken (h s .lowest hs) fun _ _ _ _ he => he.toTells

theorem elementsWithin_spells (fuel : Nat) (layout : Array LayoutItem) {elems : Array Expr} {ws : List ExprWord}
    (hs : s.Lexed) (helems : TellsAll elems.toList ws) :
    SpellsTry s (elementsWithin self fuel layout elems) fun r vs _ => TellsAll r.2 (ws ++ vs) := by
  induction fuel generalizing s layout elems ws with
  | zero => exact .pure hs (by rw [List.append_nil]; exact helems)
  | succ fuel ih =>
    have hend : SpellsTry s (pure (layout.toList, elems.toList)) fun r vs _ => TellsAll r.2 (ws ++ vs) :=
      .pure hs (by rw [List.append_nil]; exact helems)
    refine .look (g := fun s => s.cur.kind) ?_
    split
    · exact hend
    · exact hend
    · refine (spacedExpr_spells h hs).bind fun e t ht he => ?_
      refine .after (layoutItems_spells _ ht.lexed) fun layout u hu hws => ?_
      rw [hws]
      simp only [List.nil_append, ← List.append_assoc]
      exact ih layout hu.lexed (helems.push he)

theorem arrayLiteral_spells (hs : s.Lexed) (hk : s.cur.kind = .lBracket) :
    SpellsTry s (arrayLiteral self) Operand := by
  refine .look (g := State.cur) (.pass hs (word?_eq_none hk fun _ _ => rfl) ?_)
  refine .after (layoutItems_spells _ hs.passes_advance.lexed) fun _ t ht hws => .get ?_
  rw [hws]
  have hnil : TellsAll (#[] : Array Expr).toList [] := tellsAll_nil
  refine (elementsWithin_spells h t.fuel _ ht.lexed hnil).bind ?_
  rintro ⟨layout, elems⟩ u hu helems
  refine .require hu.lexed _ fun hclose => .pass hu.lexed (word?_eq_none hclose fun _ _ => rfl) ?_
  have hv := hu.lexed.passes_advance.lexed
  simp only [List.nil_append] at helems ⊢
  refine .ite (fun hempty => .pure hv ?_) fun _ => .pure hv ?_
  · obtain rfl := List.isEmpty_iff.1 hempty
    rw [List.append_nil]
    exact (helems.array _ _).operand rfl _
  · rw [List.append_nil]
    exact ((helems.retell (Expr.retellsAll_map_wrap _ elems)).array _ _).operand rfl _

theorem pairsWithin_spells (fuel : Nat) (layout : Array LayoutItem) {pairs : Array (String × Expr)}
    {ws : List ExprWord} (hs : s.Lexed) (hpairs : TellsPairs pairs.toList ws) :
    SpellsTry s (pairsWithin self fuel layout pairs) fun r vs _ => TellsPairs r.2 (ws ++ vs) := by
  induction fuel generalizing s layout pairs ws with
  | zero => exact .pure hs (by rw [List.append_nil]; exact hpairs)
  | succ fuel ih =>
    have hend : SpellsTry s (pure (layout.toList, pairs.toList)) fun r vs _ => TellsPairs r.2 (ws ++ vs) :=
      .pure hs (by rw [List.append_nil]; exact hpairs)
    refine .look (g := State.cur) ?_
    dsimp only
    split
    · exact hend
    · exact hend
    · next hk =>
      have hword : s.cur.word? = some (.name s.cur.literal) := by rw [Token.word?, hk]
      refine .ifFail (.fail hs _) fun _ => .advance hs ?_
      have hkey := hs.passes_advance.lexed
      refine .require hkey _ fun hcolon => .pass hkey (word?_eq_none hcolon fun _ _ => rfl) ?_
      refine (spacedExpr_spells h hkey.passes_advance.lexed).bind fun value t ht hvalue => ?_
      refine .after (layoutItems_spells _ ht.lexed) fun layout u hu hws => ?_
      have hgrown := ih layout hu.lexed (hpairs.push s.cur.literal hvalue)
      rw [hws, hword]
      simpa using hgrown
    · exact .fail hs _

theorem mapLiteral_spells (hs : s.Lexed) (hk : s.cur.kind = .lCurly) :
    SpellsTry s (mapLiteral self) Operand := by
  have hpush := hs.pushSpacing false
  refine .withSpacing hs (.look (g := State.cur) (.pass hpush (word?_eq_none hk fun _ _ => rfl) ?_))
  refine .after (layoutItems_spells _ hpush.passes_advance.lexed) fun _ t ht hws => .get ?_
  rw [hws]
  have hnil : TellsPairs (#[] : Array (String × Expr)).toList [] := tellsPairs_nil
  refine (pairsWithin_spells h t.fuel _ ht.lexed hnil).bind ?_
  rintro ⟨layout, pairs⟩ u hu hpairs
  refine .require hu.lexed _ fun hclose => .passOne hu.lexed (word?_eq_none hclose fun _ _ => rfl) ?_
  have hv := hu.lexed.passes_advanceOne.lexed
  simp only [List.nil_append] at hpairs ⊢
  refine .ite (fun hempty => .pure hv ?_) fun _ => .pure hv ?_
  · obtain rfl := List.isEmpty_iff.1 hempty
    rw [List.append_nil]
    exact (hpairs.map _ _).operand rfl _
  · rw [List.append_nil]
    exact ((hpairs.retell (Expr.retellsPairs_map_wrap _ pairs)).map _ _).operand rfl _

theorem unary_spells (hs : s.Lexed) (op : UnaryOp) (hword : s.cur.word? = some (.op op.text)) :
    SpellsTry s (unary self op) Operand := by
  refine .look (g := State.cur) (.advance hs (.get ?_))
  have ht := hs.passes_advance.lexed
  refine .ifFail (.failAt ht _ _) fun _ => (h _ .unary ht).bind fun e u hu he => ?_
  refine .unlessFail (.failAt hu.lexed _ _) fun _ => .pure hu.lexed ?_
  have hlevel : Precedence.unary.level ≤ e.level := by
    have hnests := he.level
    simp only [Precedence.level] at hnests ⊢
    omega
  refine ⟨⟨?_, hlevel, he.layered⟩, Nat.le_refl _, he.stops⟩
  rw [hword, List.append_nil, ← he.words]
  rfl

theorem grouped_spells (hs : s.Lexed) (hk : s.cur.kind = .lParen) : SpellsTry s (grouped self) Operand := by
  have hpush := hs.pushSpacing false
  refine .withSpacing hs (.look (g := State.cur) (.pass hpush (word?_eq_none hk fun _ _ => rfl) ?_))
  refine .after (topLevel_spells h hpush.passes_advance.lexed) fun inner? t ht hinner => ?_
  refine .after (Spells.expect ht.lexed .rParen) fun closed u hu hclosed => ?_
  cases inner? with
  | none => exact .failure hu.lexed
  | some inner =>
    refine .unlessFail (.failure hu.lexed) fun htrue => ?_
    obtain ⟨hclose, rfl⟩ := hclosed.2.2 htrue
    refine .passOne hu.lexed (word?_eq_none hclose fun _ _ => rfl) (.pure hu.lexed.passes_advanceOne.lexed ?_)
    rw [hclosed.1, List.append_nil, List.append_nil]
    exact ((hinner inner rfl).group _).operand rfl _

theorem operand_spells (hs : s.Lexed) : SpellsTry s (operand self) Operand := by
  have ht := hs.passes_advance.lexed
  refine .look (g := State.cur) ?_
  split
  · next hk => exact readVariable_spells hs hk
  · next hk =>
    refine .advance hs (.pure ht ?_)
    rw [Token.word?, hk]
    exact (tells_str _ _).operand rfl _
  · next hk => exact numLiteral_spells hs hk
  · next hk =>
    refine .advance hs (.pure ht ?_)
    rw [Token.word?, hk]
    exact (tells_bool _ _).operand rfl _
  · next hk =>
    refine .advance hs (.pure ht ?_)
    rw [Token.word?, hk]
    exact (tells_bool _ _).operand rfl _
  · next hk => exact arrayLiteral_spells h hs hk
  · next hk => exact mapLiteral_spells h hs hk
  · next hk => exact unary_spells h hs .not (by rw [Token.word?, hk]; rfl)
  · next hk => exact unary_spells h hs .neg (by rw [Token.word?, hk]; rfl)
  · next hk => exact grouped_spells h hs hk
  · exact .after (reportOperand_spells hs) fun _ t ht _ => .failure ht.lexed

/-! ### Operators -/

theorem binary_spells {left : Expr} {op : BinaryOp} (hs : s.Lexed) (hop : BinaryOp.ofToken? s.cur.kind = some op)
    (hleft : left.Layered) (hlevel : op.precedence.level ≤ left.level) :
    SpellsTry s (binary self op left) (Joins op.precedence.level left) := by
  refine .look (g := State.cur) (.advance hs ((h _ _ hs.passes_advance.lexed).bind fun right t ht hright => ?_))
  obtain ⟨hretold, hretold'⟩ := retells_joinable op left right
  have hjoined {u : State} (hu : u.Stops op.precedence.level) (m : Mark) (tight : Bool) :
      Joins op.precedence.level left (.binary m op tight (joinable op left right).1 (joinable op left right).2)
        (s.cur.word?.toList ++ (s.advance.wordsTo t ++ [])) u := by
    have hnests := hright.level
    have hunary := op.level_lt_unary
    rw [BinaryOp.precedence_of_token hop] at hnests
    refine ⟨⟨?_, ?_, ?_, hretold.layered hleft, hretold'.layered hright.layered⟩, rfl, hu⟩
    · rw [BinaryOp.word_of_token hop, List.append_nil]
      show (joinable op left right).1.words ++ ExprWord.op op.text :: (joinable op left right).2.words = _
      rw [hretold.words, hretold'.words, hright.words]
      rfl
    · rw [hretold.level]
      exact hlevel
    · rw [hretold'.level]
      omega
  have hstops := hright.stops
  rw [BinaryOp.precedence_of_token hop] at hstops
  dsimp only
  split
  · exact (SpellsTry.failAt (Q := fun _ _ _ => False) ht.lexed _ _).bind fun _ _ _ hfalse => hfalse.elim
  · exact .get (.pure ht.lexed (hjoined hstops _ _))

theorem sliceRest_spells {token : Token} {left : Expr} {start : Option Expr} {ws : List ExprWord} (hs : s.Lexed)
    (hleft : left.Layered) (hlevel : Precedence.index.level ≤ left.level) (hstart : TellsOption start ws) :
    SpellsTry s (sliceRest self token left start) fun e vs _ =>
      e.level = Precedence.index.level ∧ Tells e (left.words ++ (ws ++ vs)) := by
  refine .unlessFail (.failAt hs _ _) fun _ => .look (g := fun s => s.cur.kind) ?_
  extract_lets rest
  have hrest {t : State} (ht : t.Lexed) {stop : Option Expr} {us : List ExprWord} (hstop : TellsOption stop us) :
      SpellsTry t (rest stop) fun e vs _ =>
        e.level = Precedence.index.level ∧ Tells e (left.words ++ (ws ++ (us ++ vs))) := by
    refine .require ht _ fun hclose => ?_
    refine (SpellsTry.forIn _ ht fun bound => ?_).bind ?_
    · exact .unlessFail (.failAt ht _ _) fun _ => .pure ht ⟨rfl, rfl⟩
    · rintro _ u - ⟨hws, rfl⟩
      rw [hws]
      refine .passOne ht (word?_eq_none hclose fun _ _ => rfl) (.pure ht.passes_advanceOne.lexed ?_)
      refine ⟨rfl, ?_, hlevel, hleft, hstart.layered, hstop.layered⟩
      simp [Expr.words, hstart.words, hstop.words]
  refine .ite (fun _ => hrest hs tellsOption_none) fun _ => ?_
  rw [map_eq_pure_bind]
  have hsome : SpellsTry s (topLevel self >>= fun e => pure (some e)) fun stop us _ => TellsOption stop us :=
    (topLevel_spells h hs).bind fun e t ht he => .pure ht.lexed (by
      rw [List.append_nil]
      exact he.some)
  exact hsome.bind fun stop t ht hstop => hrest ht.lexed hstop

theorem indexOrSlice_spells {left : Expr} (hs : s.Lexed) (hk : s.cur.kind = .lBracket) (hleft : left.Layered)
    (hlevel : Precedence.index.level ≤ left.level) (allowSlice : Bool) :
    SpellsTry s (indexOrSlice self left allowSlice) (Joins Precedence.index.level left) := by
  have hpush := hs.pushSpacing false
  have hkey := hpush.passes_advance.lexed
  refine .withSpacing hs (.look (g := State.cur) (.get (.ifFail (.fail hpush _) fun _ => ?_)))
  refine .pass hpush (word?_eq_none hk fun _ _ => rfl) (.unlessFail (.failAt hkey _ _) fun _ => ?_)
  have hslice {t : State} (ht : t.Lexed) (hcolon : t.cur.kind = .colon) {start : Option Expr} {ws : List ExprWord}
      (hstart : TellsOption start ws) : SpellsTry t (do
        advance
        return ← sliceRest self (s.pushSpacing false).cur left start : Attempt Expr) fun e vs u =>
          Joins Precedence.index.level left e (ws ++ vs) u.popSpacing := by
    refine .pass ht (word?_eq_none hcolon fun _ _ => rfl) ?_
    refine SpellsTry.weaken (sliceRest_spells h ht.passes_advance.lexed hleft hlevel hstart) ?_
    exact fun e vs u _ he => he.2.joins left he.1 _
  refine .look (g := fun t => t.cur.kind) (.ite (fun hcolon => ?_) fun _ => ?_)
  · have hkind : (s.pushSpacing false).advance.cur.kind = .colon := by simp_all
    exact hslice hkey hkind tellsOption_none
  refine (topLevel_spells h hkey).bind fun key t ht hkey => ?_
  refine .look (g := fun t => t.cur.kind) (.ite (fun hcolon => ?_) fun _ => ?_)
  · have hkind : t.cur.kind = .colon := by simp_all
    exact hslice ht.lexed hkind hkey.some
  refine .require ht.lexed _ fun hclose => .unlessFail (.failAt ht.lexed _ _) fun _ => ?_
  refine .passOne ht.lexed (word?_eq_none hclose fun _ _ => rfl) (.pure ht.lexed.passes_advanceOne.lexed ?_)
  refine Tells.joins left (e := .index _ left key) ⟨?_, hlevel, hleft, hkey.layered⟩ rfl _
  rw [List.append_nil, ← hkey.words]
  rfl

theorem afterOperand_spells {left : Expr} (hs : s.Lexed) (hpos : 0 < (precedenceOf s.cur.kind).level)
    (hleft : left.Layered) (hlevel : (precedenceOf s.cur.kind).level ≤ left.level) :
    SpellsTry s (afterOperand self left) (Joins (precedenceOf s.cur.kind).level left) := by
  refine .get ?_
  split
  · next op hop =>
    rw [BinaryOp.precedence_of_token hop] at hlevel ⊢
    exact binary_spells h hs hop hleft hlevel
  · next hop =>
    obtain ⟨hindex, hk⟩ := precedenceOf_eq_index hop hpos
    rw [hindex] at hlevel ⊢
    refine .ite (fun hk => indexOrSlice_spells h hs hk hleft hlevel true) fun hne => ?_
    have hdot : s.cur.kind = .dot := hk.resolve_left hne
    refine .ite (fun hpeek => ?_) fun _ => field_spells hs hdot hleft hlevel
    exact typeAssertion_spells hs hdot (by simp_all) hleft hlevel

/-- The loop keeps what it has read layered: an operator that comes next binds at most as strongly as the
last one, since the operand of that one ends before it. -/
theorem operatorsWithin_spells {p : Precedence} (fuel : Nat) {left : Expr} {ws : List ExprWord} (hs : s.Lexed)
    (hleft : Tells left ws) (hlevel : min (p.level + 1) Precedence.unary.level ≤ left.level)
    (hstops : s.Stops left.level) :
    SpellsTry s (operatorsWithin self p fuel left) fun e vs _ =>
      Tells e (ws ++ vs) ∧ min (p.level + 1) Precedence.unary.level ≤ e.level := by
  induction fuel generalizing s left ws with
  | zero => exact .pure hs ⟨by rw [List.append_nil]; exact hleft, hlevel⟩
  | succ fuel ih =>
    refine .look (g := fun s => (s.isSpaced && s.cur.kind = .ws) || s.atLineEnd) ?_
    refine .look (g := fun s => s.cur.kind) (.ite (fun _ => ?_) fun hgo => ?_)
    · exact .pure hs ⟨by rw [List.append_nil]; exact hleft, hlevel⟩
    rw [Bool.or_eq_true, not_or, decide_eq_true_eq, Nat.not_le] at hgo
    have hbinds : (precedenceOf s.cur.kind).level ≤ left.level := hstops.resolve_left hgo.1
    have hpos : 0 < (precedenceOf s.cur.kind).level := Nat.lt_of_le_of_lt (Nat.zero_le _) hgo.2
    refine (afterOperand_spells h hs hpos hleft.layered hbinds).bind fun e t ht he => ?_
    have hnext : min (p.level + 1) Precedence.unary.level ≤ e.level := by
      rw [he.level]
      omega
    have htells : Tells e (ws ++ s.wordsTo t) := hleft.words ▸ he.tells
    simp only [← List.append_assoc]
    exact ih ht.lexed htells hnext (he.level.symm ▸ he.stops)

end

/-! ### Nested expressions -/

/-- Nested expressions make progress whatever bounds the nesting. -/
theorem exprWithin_strides (fuel n : Nat) : NestedAgree n (exprWithin fuel) (exprWithin fuel) := by
  induction fuel generalizing n with
  | zero => exact fun p => .fails (m := exprWithin 0 p) .failure not_succeeds_none
  | succ fuel ih =>
    intro p
    refine AgreeTry.fast (operand_agree fun j _ => ih j) not_succeeds_none fun left j _ => ?_
    refine .fuel fun s i _ hlt => ?_
    exact operatorsWithin_agree (fun k _ => ih k) hlt hlt left

theorem exprWithin_spells (fuel : Nat) {s : State} (p : Precedence) (hs : s.Lexed) :
    SpellsTry s (exprWithin fuel p) (Nests p) := by
  induction fuel generalizing s p with
  | zero => exact .failure hs
  | succ fuel ih =>
    have hnested : ∀ (s : State) (p : Precedence), s.Lexed → SpellsTry s (exprWithin fuel p) (Nests p) :=
      fun s p hs => ih p hs
    refine (operand_spells hnested hs).bind fun left t ht hleft => .get ?_
    have hlevel : min (p.level + 1) Precedence.unary.level ≤ left.level :=
      Nat.le_trans (Nat.min_le_right _ _) hleft.level
    have hloop := operatorsWithin_spells hnested t.fuel ht.lexed hleft.toTells hlevel hleft.stops
    have hends := operatorsWithin_ends (p := Any) (q := p) (n := t.remaining)
      (fun j _ => exprWithin_strides fuel j) t.remaining_lt_fuel left t ht.lexed.toInRange (Nat.le_refl _) trivial
    refine ⟨hloop.passes, fun e he => ?_⟩
    obtain ⟨htells, hbinds⟩ := hloop.result e he
    exact ⟨htells, hbinds, hends (by rw [he]; rfl)⟩

theorem nested_spells {s : State} (p : Precedence) (hs : s.Lexed) : SpellsTry s (nested p) (Nests p) :=
  .get (exprWithin_spells s.fuel p hs)

theorem topLevelExpr_spells {s : State} (hs : s.Lexed) : SpellsExpr s topLevelExpr :=
  topLevel_spells (fun _ p hs => nested_spells p hs) hs

/-! ### Targets of assignments -/

theorem targetWithin_spells (token : Token) (fuel : Nat) {s : State} {target : Expr} {ws : List ExprWord}
    (hs : s.Lexed) (htarget : Tells target ws) (hlevel : Precedence.index.level ≤ target.level) :
    SpellsTry s (targetWithin token fuel target) fun e vs _ => Tells e (ws ++ vs) := by
  induction fuel generalizing s target ws with
  | zero => exact .pure hs (by rw [List.append_nil]; exact htarget)
  | succ fuel ih =>
    have hnext {e : Expr} {vs : List ExprWord} {t : State} (ht : t.Lexed)
        (he : Joins Precedence.index.level target e vs t) :
        SpellsTry t (targetWithin token fuel e) fun e' us _ => Tells e' (ws ++ (vs ++ us)) := by
      have htells : Tells e (ws ++ vs) := htarget.words ▸ he.tells
      simp only [← List.append_assoc]
      exact ih ht htells (Nat.le_of_eq he.level.symm)
    refine .look (g := fun s => s.cur.kind) ?_
    split
    · next hk =>
      refine .ifFail (.failAt hs _ _) fun _ => ?_
      have hindex := indexOrSlice_spells (fun _ p hs => nested_spells p hs) hs hk htarget.layered hlevel false
      exact hindex.bind fun e t ht he => hnext ht.lexed he
    · next hk =>
      exact (field_spells hs hk htarget.layered hlevel).bind fun e t ht he => hnext ht.lexed he
    · exact .pure hs (by rw [List.append_nil]; exact htarget)

/-- A target is read from the token of its name on. -/
theorem assignTarget_spells {s : State} (hs : s.Lexed) (hk : s.cur.kind = .ident) :
    SpellsExpr s assignTarget := by
  have hword : s.cur.word? = some (.name s.cur.literal) := by rw [Token.word?, hk]
  refine .look (g := State.cur) (.advance hs ?_)
  have ht := hs.passes_advance.lexed
  refine .ifFail (.failAt ht _ _) fun _ => .after (readVar?_spells _ ht) fun r u hu hr => ?_
  cases r with
  | none => exact .failAt hu.lexed _ _
  | some v =>
    refine .get ?_
    rw [hword, hr.1, ← hr.2 v rfl]
    exact targetWithin_spells _ _ hu.lexed (tells_var _ v.name) (Nat.le_refl _)

end Parsing

end TinyScript
