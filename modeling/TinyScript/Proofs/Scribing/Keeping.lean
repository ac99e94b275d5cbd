import TinyScript.Proofs.Scribing.Stability

/-!
# What formatting keeps

The canonical layout has the tokens of the source, blanks and ends of lines apart. In two places a source may hold
tokens that the layout does not show: what follows the end of a block on its line is left out, and what stands behind
the name of a parameter becomes a colon.
-/

namespace TinyScript

/-! ### Tokens by what they say -/

/-- What a token says, however it is written. -/
inductive Gist where
  | sign (kind : TokenKind)
  | name (name : String)
  | text (literal : String)
  | number (value : Option Float)
  | comment (text : String)
  deriving DecidableEq

/-- Blanks, ends of lines and the end of input say nothing. -/
def gist (kind : TokenKind) (literal : String) : List Gist :=
  match kind with
  | .ws | .nl | .eof => []
  | .ident => [.name literal]
  | .stringLit => [.text literal]
  | .numLit => [.number (Decimal.readFloat? literal)]
  | .comment => [.comment (Text.trim literal)]
  | _ => [.sign kind]

def gists (ts : List Token) : List Gist :=
  ts.flatMap fun t => gist t.kind t.literal

@[simp] theorem gists_nil : gists [] = [] := rfl

@[simp] theorem gists_singleton (t : Token) : gists [t] = gist t.kind t.literal := by
  simp [gists]

@[simp] theorem gists_append (ts ts' : List Token) : gists (ts ++ ts') = gists ts ++ gists ts' := by
  simp [gists]

theorem gist_of_isFixed {kind : TokenKind} (h : kind.isFixed) (literal literal' : String) :
    gist kind literal = gist kind literal' := by
  cases kind <;> first | (cases h; done) | rfl

theorem gist_comment_trim (literal : String) : gist .comment (Text.trim literal) = gist .comment literal := by
  rw [gist, gist, Text.trim_trim]

/-! ### Tokens that are passed unseen -/

/-- How the tokens of a source are passed. -/
inductive Passage where
  | plain
  /-- Before the name of a function or handler. -/
  | head
  /-- Behind that name, up to the end of the line. -/
  | params
  /-- After the name of a parameter. -/
  | colon
  /-- After the end of a block. -/
  | ended
  /-- In what follows the end of a block on its line. -/
  | rest
  deriving DecidableEq

namespace Passage

/-- How tokens are passed after one of the kind. -/
def next : Passage → TokenKind → Passage
  | .head, _ | .colon, _ => .params
  | _, .nl | _, .eof => .plain
  | .plain, .func | .plain, .on => .head
  | .plain, .end => .ended
  | .params, .ident => .colon
  | .ended, .comment => .plain
  | .ended, _ => .rest
  | m, _ => m

/-- What is left of a token. -/
def leaves : Passage → Token → List Token
  | .colon, t => [{ t with kind := .colon, literal := "" }]
  | .ended, t => if t.kind = .comment then [t] else []
  | .rest, _ => []
  | _, t => [t]

end Passage

/-- What is left of the tokens of a source. -/
def mend : Passage → List Token → List Token
  | _, [] => []
  | m, t :: ts => if t.kind = .ws then mend m ts else m.leaves t ++ mend (m.next t.kind) ts

theorem mend_cons_ws {t : Token} (h : t.kind = .ws) (m : Passage) (ts : List Token) : mend m (t :: ts) = mend m ts := by
  rw [mend, if_pos h]

theorem mend_cons {t : Token} (h : t.kind ≠ .ws) (m : Passage) (ts : List Token) :
    mend m (t :: ts) = m.leaves t ++ mend (m.next t.kind) ts := by
  rw [mend, if_neg h]

/-- Nothing is said at the end of input. -/
theorem gists_leaves_eof {m : Passage} {t : Token} (hm : m.next .eof = .plain) (ht : t.kind = .eof) :
    gists (m.leaves t) = [] := by
  cases m with
  | plain | params => simp [Passage.leaves, gist, ht]
  | ended | rest => simp [Passage.leaves, ht]
  | head | colon => cases hm

theorem gists_mend_eof {m : Passage} {ts : List Token} (hm : m.next .eof = .plain) (hts : ∀ t ∈ ts, t.kind = .eof) :
    gists (mend m ts) = [] := by
  induction ts generalizing m with
  | nil => rfl
  | cons t ts ih =>
    obtain ⟨ht, hts⟩ := List.forall_mem_cons.1 hts
    rw [mend_cons (by rw [ht]; nofun), gists_append, gists_leaves_eof hm ht, ht, hm, List.nil_append]
    exact ih rfl hts

/-- Numbers are those of the source. -/
theorem number_mem_mend {m : Passage} {ts : List Token} {value : Option Float}
    (h : Gist.number value ∈ gists (mend m ts)) : ∃ t ∈ ts, t.kind = .numLit ∧ Decimal.readFloat? t.literal = value := by
  have hgist {kind : TokenKind} {literal : String} (h : Gist.number value ∈ gist kind literal) :
      kind = .numLit ∧ Decimal.readFloat? literal = value := by
    cases kind <;> simp_all [gist]
  induction ts generalizing m with
  | nil => cases h
  | cons t ts ih =>
    by_cases hws : t.kind = .ws
    · rw [mend_cons_ws hws] at h
      obtain ⟨t', ht', hvalue⟩ := ih h
      exact ⟨t', List.mem_cons_of_mem _ ht', hvalue⟩
    · rw [mend_cons hws, gists_append, List.mem_append] at h
      rcases h with h | h
      · refine ⟨t, List.mem_cons_self, ?_⟩
        cases m with
        | plain | head | params => exact hgist (by simpa [Passage.leaves] using h)
        | colon => simp [Passage.leaves, gist] at h
        | ended =>
          rw [Passage.leaves] at h
          split at h
          · exact hgist (by simpa using h)
          · cases h
        | rest => cases h
      · obtain ⟨t', ht', hvalue⟩ := ih h
        exact ⟨t', List.mem_cons_of_mem _ ht', hvalue⟩

end TinyScript

namespace TinyScript.Layout
open Word

/-! ### Words by what they say -/

def saying (words : List Word) : List Gist :=
  words.flatMap fun w => gist (wordKind w) (wordLiteral w)

@[simp] theorem saying_nil : saying [] = [] := rfl

@[simp] theorem saying_append (words words' : List Word) : saying (words ++ words') = saying words ++ saying words' := by
  simp [saying]

section
variable {kind : TokenKind} {literal : String} {gap : List Word}

theorem saying_token (hgap : IsGap gap) : saying (gap ++ [token kind literal]) = gist kind literal := by
  rcases hgap with rfl | ⟨more, rfl⟩ <;> simp [saying, wordKind, wordLiteral, gist]

theorem saying_blankRow : saying blankRow.words = [] := rfl

end

/-- Blank rows say nothing. -/
theorem saying_tidy {rows : List Row} (hblank : BlankRows rows) (afterBlank : Bool) :
    saying (rowWords (tidy afterBlank rows)) = saying (rowWords rows) := by
  induction rows generalizing afterBlank with
  | nil => rfl
  | cons r rest ih =>
    have hrest : BlankRows rest := fun r' hr' => hblank r' (List.mem_cons_of_mem _ hr')
    rw [tidy]
    split
    · next hk =>
      obtain rfl := hblank r List.mem_cons_self hk
      split <;> simp [saying_blankRow, ih hrest]
    · split <;> simp [saying_blankRow, ih hrest]

theorem saying_shown {rows : List Row} (hblank : BlankRows rows) : saying (rowWords (shown rows)) = saying (rowWords rows) := by
  unfold shown
  split
  · next hempty => rw [List.isEmpty_iff.1 hempty]; rfl
  · exact saying_tidy hblank false

theorem Spoken.gists {words : List Word} {ts : List (TokenKind × String)} (h : Spoken words ts)
    (hfinite : infinity ∉ words) : (ts.flatMap fun t => gist t.1 t.2) = saying words := by
  induction h with
  | nil => rfl
  | word _ _ ih => simp [saying, ih (List.not_mem_of_not_mem_cons hfinite)]
  | infinite => exact absurd List.mem_cons_self hfinite

/-! ### What strokes keep -/

/-- How tokens are passed at a place, except that the parameters of a function or handler go up to the end of the
line. -/
def Place.passage : Place → Passage
  | .funcName | .handlerName => .head
  | .result | .params | .type .head | .typeEnd .head _ => .params
  | .paramColon => .colon
  | .ended => .ended
  | .rest => .rest
  | _ => .plain

/-- Whether tokens can be passed like that at a place. -/
def Place.Passes (place : Place) (m : Passage) : Prop :=
  m = place.passage ∨ m = .params ∧ (place = .finish ∨ place = .closed)

theorem Place.Passes.eq {m : Passage} {place : Place} (h : place.Passes m) (hplace : place ≠ .finish ∧ place ≠ .closed) :
    m = place.passage :=
  h.resolve_right fun h => h.2.elim hplace.1 hplace.2

/-- What is written for a token says what is left of it. -/
structure Retains (m : Passage) (t : Token) (r : List Word × Scribe) : Prop where
  words : saying r.1 = gists (m.leaves t)
  place : r.2.place.Passes (m.next t.kind)

section
variable {m : Passage} {fn : String → Bool} {c : Scribe} {kind : TokenKind} {literal : String} {pos : Position}
  {blank first : Bool} {gap : List Word} {r : List Word × Scribe}

theorem Retains.token {kind' : TokenKind} {literal' : String} (hm : m.leaves ⟨kind, literal, pos⟩ = [⟨kind, literal, pos⟩])
    (hgap : IsGap gap) (hgist : gist kind' literal' = gist kind literal) (hplace : c.place.Passes (m.next kind)) :
    Retains m ⟨kind, literal, pos⟩ (gap ++ [Word.token kind' literal'], c) := by
  refine ⟨?_, hplace⟩
  rw [hm, gists_singleton]
  exact (saying_token hgap).trans hgist

theorem Retains.sign (hm : m.leaves ⟨kind, literal, pos⟩ = [⟨kind, literal, pos⟩]) (hgap : IsGap gap)
    (hkind : kind.isFixed) (hplace : c.place.Passes (m.next kind)) :
    Retains m ⟨kind, literal, pos⟩ (gap ++ [Word.sign kind], c) :=
  .token hm hgap (gist_of_isFixed hkind _ _) hplace

/-- A sign without a gap. -/
theorem Retains.tight (hm : m.leaves ⟨kind, literal, pos⟩ = [⟨kind, literal, pos⟩]) (hkind : kind.isFixed)
    (hplace : c.place.Passes (m.next kind)) : Retains m ⟨kind, literal, pos⟩ ([Word.sign kind], c) :=
  .sign hm isGap_nil hkind hplace

/-- A sign after a space. -/
theorem Retains.apart (hm : m.leaves ⟨kind, literal, pos⟩ = [⟨kind, literal, pos⟩]) (hkind : kind.isFixed)
    (hplace : c.place.Passes (m.next kind)) : Retains m ⟨kind, literal, pos⟩ ([space, Word.sign kind], c) :=
  .sign hm isGap_space hkind hplace

/-- The end of a line. -/
theorem Retains.lineEnd (hm : m.next .eof = .plain) (hkind : kind = .nl ∨ kind = .eof)
    (hplace : c.place = .start) : Retains m ⟨kind, literal, pos⟩ ([newline], c) := by
  refine ⟨?_, .inl ?_⟩
  · rcases hkind with rfl | rfl <;> cases m <;> first | rfl | cases hm
  · rw [hplace]
    rcases hkind with rfl | rfl <;> cases m <;> first | rfl | cases hm

theorem finishStroke_retains (hm : m = .plain ∨ m = .params) (h : finishStroke c kind literal = some r) :
    Retains m ⟨kind, literal, pos⟩ r := by
  have heof : m.next .eof = .plain := by rcases hm with rfl | rfl <;> rfl
  unfold finishStroke at h
  split at h
  · cases h
    exact .lineEnd heof (.inl rfl) rfl
  · cases h
    exact .lineEnd heof (.inr rfl) rfl
  · cases h
    rcases hm with rfl | rfl
    · exact .token rfl isGap_space (gist_comment_trim literal) (.inl rfl)
    · exact .token rfl isGap_space (gist_comment_trim literal) (.inr ⟨rfl, .inr rfl⟩)
  · cases h

theorem closingStroke_retains {frames : List LineFrame} (h : closingStroke c kind literal frames = some r) :
    Retains .plain ⟨kind, literal, pos⟩ r := by
  induction frames with
  | nil =>
    unfold closingStroke at h
    split at h
    · next hk =>
      subst hk
      cases h
      exact .apart rfl rfl (.inl rfl)
    · exact finishStroke_retains (.inl rfl) h
  | cons f fs ih =>
    cases f with
    | args => exact ih h
    | paren =>
      unfold closingStroke at h
      obtain ⟨rfl, hr⟩ := Option.ite_none_right_eq_some.1 h
      cases hr
      exact .tight rfl rfl (.inl rfl)
    | index =>
      unfold closingStroke at h
      split at h
      · next hk =>
        subst hk
        cases h
        exact .tight rfl rfl (.inl rfl)
      · obtain ⟨rfl, hr⟩ := Option.ite_none_right_eq_some.1 h
        cases hr
        exact .tight rfl rfl (.inl rfl)
    | array | map => cases h

/-- What is read from a number is read again from what it is written as. -/
def Renewed (kind : TokenKind) (literal : String) : Prop :=
  kind = .numLit → ∀ x, Decimal.readFloat? literal = some x → Decimal.readFloat? (Number.text x) = some x

theorem operandStroke_retains (hread : Renewed kind literal) (hgap : IsGap gap)
    (h : operandStroke fn c kind literal first gap = some r) : Retains .plain ⟨kind, literal, pos⟩ r := by
  unfold operandStroke at h
  split at h
  · split at h
    · cases h
      exact .token rfl hgap rfl (.inl rfl)
    · split at h <;> cases h
      exact .token rfl hgap rfl (.inl rfl)
  · obtain ⟨x, hx, rfl⟩ := Option.map_eq_some_iff.1 h
    refine .token rfl hgap ?_ (.inl rfl)
    rw [gist, gist, hread rfl x hx, hx]
  · cases h
    exact .token rfl hgap rfl (.inl rfl)
  all_goals cases h
  all_goals exact .sign rfl hgap rfl (.inl rfl)

theorem elementStroke_retains {item : Item} (hread : Renewed kind literal)
    (h : elementStroke fn c kind literal item = some r) : Retains .plain ⟨kind, literal, pos⟩ r := by
  unfold elementStroke at h
  split at h
  · split at h
    · split at h <;> cases h <;> exact ⟨rfl, .inl rfl⟩
    · cases h
      exact .token rfl (item.isGap_commentLead _) (gist_comment_trim literal) (.inl rfl)
    · cases h
      exact .sign rfl (item.isGap_back _) rfl (.inl rfl)
    · exact operandStroke_retains hread (item.isGap_lead _) h
  · split at h
    · split at h <;> cases h <;> exact ⟨rfl, .inl rfl⟩
    · cases h
      exact .token rfl (item.isGap_commentLead _) (gist_comment_trim literal) (.inl rfl)
    · cases h
      exact .sign rfl (item.isGap_back _) rfl (.inl rfl)
    · cases h
      exact .token rfl (item.isGap_lead _) rfl (.inl rfl)
    · cases h
  · cases h

theorem betweenStroke_retains (hread : Renewed kind literal) (h : betweenStroke fn c kind literal = some r) :
    Retains .plain ⟨kind, literal, pos⟩ r := by
  unfold betweenStroke at h
  split at h
  · split at h
    · next s hs =>
      cases h
      exact operandStroke_retains hread isGap_space hs
    · exact closingStroke_retains h
  · exact elementStroke_retains hread h

theorem operatorStroke_retains (hread : Renewed kind literal) (h : operatorStroke fn c kind literal blank = some r) :
    Retains .plain ⟨kind, literal, pos⟩ r := by
  unfold operatorStroke at h
  dsimp only at h
  split at h
  · exact betweenStroke_retains hread h
  split at h
  · next hop =>
    cases h
    have hkind : kind.isFixed ∧ Passage.plain.next kind = .plain := by
      cases kind <;> first | exact ⟨rfl, rfl⟩ | cases hop
    refine .sign rfl ?_ hkind.1 (.inl hkind.2)
    split
    · exact isGap_nil
    · exact isGap_space
  split at h
  · next hk =>
    cases h
    obtain ⟨rfl, -⟩ : kind = .lBracket ∧ blank = false := by simpa using hk
    exact .tight rfl rfl (.inl rfl)
  split at h
  · next hk =>
    cases h
    obtain ⟨rfl, -⟩ : kind = .dot ∧ blank = false := by simpa using hk
    exact .tight rfl rfl (.inl rfl)
  split at h
  · exact betweenStroke_retains hread h
  · exact closingStroke_retains h

theorem startStroke_retains (h : startStroke c kind literal = some r) : Retains .plain ⟨kind, literal, pos⟩ r := by
  cases kind
  case comment =>
    cases h
    exact .token rfl (isGap_indent c.level) (gist_comment_trim literal) (.inl rfl)
  case ident =>
    cases h
    exact .token rfl (isGap_indent c.level) rfl (.inl rfl)
  case nl =>
    cases h
    exact .lineEnd rfl (.inl rfl) rfl
  case «else» | «end» =>
    cases h
    exact .sign rfl (isGap_indent (c.level - 1)) rfl (.inl rfl)
  case «return» | «break» | «if» | «while» | «for» | func | on =>
    cases h
    exact .sign rfl (isGap_indent c.level) rfl (.inl rfl)
  all_goals cases h

theorem namedStroke_retains {name : String} (hread : Renewed kind literal)
    (h : namedStroke fn c kind literal name blank = some r) : Retains .plain ⟨kind, literal, pos⟩ r := by
  unfold namedStroke at h
  split at h
  · split at h <;> cases h
    exact .apart rfl rfl (.inl rfl)
  · split at h <;> cases h
    exact .tight rfl rfl (.inl rfl)
  · cases h
    exact .tight rfl rfl (.inl rfl)
  · cases h
    exact .apart rfl rfl (.inl rfl)
  · split at h
    · exact betweenStroke_retains hread h
    · split at h
      · next hk =>
        cases h
        obtain ⟨⟨rfl, -⟩, -⟩ : (kind = .lBracket ∧ _) ∧ _ := by simpa using hk
        exact .tight rfl rfl (.inl rfl)
      · cases h

theorem paramsStroke_retains (h : paramsStroke c kind literal = some r) : Retains .params ⟨kind, literal, pos⟩ r := by
  unfold paramsStroke at h
  split at h
  · cases h
    exact .token rfl isGap_space rfl (.inl rfl)
  · cases h
    exact .tight rfl rfl (.inr ⟨rfl, .inl rfl⟩)
  · exact finishStroke_retains (.inr rfl) h

theorem rangeStroke_retains (h : rangeStroke c kind = some r) : Retains .plain ⟨kind, literal, pos⟩ r := by
  obtain ⟨rfl, hr⟩ := Option.ite_none_right_eq_some.1 h
  cases hr
  exact .apart rfl rfl (.inl rfl)

/-- After the end of a block only a comment is kept on its line. -/
theorem endedStroke_retains (h : endedStroke c kind literal = some r) : Retains .ended ⟨kind, literal, pos⟩ r := by
  unfold endedStroke at h
  split at h
  · cases h
    exact .lineEnd rfl (.inl rfl) rfl
  · cases h
    exact .lineEnd rfl (.inr rfl) rfl
  · cases h
    exact .token rfl isGap_space (gist_comment_trim literal) (.inl rfl)
  · next hnl heof hcomment =>
    cases h
    refine ⟨?_, .inl ?_⟩
    · rw [Passage.leaves, if_neg hcomment]
      rfl
    · cases kind <;> first | rfl | contradiction

/-- What is written at a place says what is left of the token. -/
theorem stroke_retains (hm : c.place.Passes m) (hread : Renewed kind literal)
    (h : stroke fn c kind literal blank = some r) : Retains m ⟨kind, literal, pos⟩ r := by
  by_cases hlast : c.place = .finish ∨ c.place = .closed
  · have hm : m = .plain ∨ m = .params := by
      rcases hm with rfl | ⟨rfl, -⟩
      · exact .inl (by rcases hlast with h | h <;> rw [h] <;> rfl)
      · exact .inr rfl
    rcases hlast with hplace | hplace <;> simp only [stroke, hplace] at h
    · exact finishStroke_retains hm h
    · obtain ⟨hk, hr⟩ := Option.ite_none_right_eq_some.1 h
      cases hr
      exact .lineEnd (by rcases hm with rfl | rfl <;> rfl) hk rfl
  obtain rfl := hm.eq ⟨fun h => hlast (.inl h), fun h => hlast (.inr h)⟩
  cases hplace : c.place <;> simp only [stroke, hplace] at h
  case finish | closed => simp [hplace] at hlast
  case start => exact startStroke_retains h
  case named => exact namedStroke_retains hread h
  case operand first lead =>
    split at h
    · cases h
    split at h
    · next s hs =>
      cases h
      exact operandStroke_retains hread (isGap_leadWords lead) hs
    · exact closingStroke_retains h
  case operator => exact operatorStroke_retains hread h
  case argument => exact betweenStroke_retains hread h
  case element => exact elementStroke_retains hread h
  case result =>
    split at h
    · next hk =>
      subst hk
      cases h
      exact .tight rfl rfl (.inl rfl)
    · exact paramsStroke_retains h
  case params => exact paramsStroke_retains h
  case loopRange => exact rangeStroke_retains h
  case ended => exact endedStroke_retains h
  case dot =>
    split at h
    · cases h
      exact .token rfl isGap_nil rfl (.inl rfl)
    · cases h
      exact .tight rfl rfl (.inl rfl)
    · cases h
  case type site =>
    split at h <;> cases h
    all_goals cases site <;> exact .tight rfl rfl (.inl rfl)
  case typeEnd site map =>
    obtain ⟨hk, hr⟩ := Option.ite_none_right_eq_some.1 h
    cases hr
    cases site <;> cases map <;> subst hk <;> exact .tight rfl rfl (.inl rfl)
  case paramColon =>
    cases h
    exact ⟨rfl, .inl rfl⟩
  case rest =>
    split at h
    · next hk =>
      cases h
      exact .lineEnd rfl hk rfl
    · next hk =>
      cases h
      refine ⟨rfl, .inl ?_⟩
      rw [hplace]
      cases kind <;> first | rfl | simp at hk
  case loopVar =>
    split at h
    · next hk =>
      subst hk
      cases h
      exact .token rfl isGap_space rfl (.inl rfl)
    · exact rangeStroke_retains h
  case otherwise =>
    split at h
    · next hk =>
      subst hk
      cases h
      exact .apart rfl rfl (.inl rfl)
    · exact finishStroke_retains (.inl rfl) h
  case funcName =>
    obtain ⟨hk, hr⟩ := Option.ite_none_right_eq_some.1 h
    obtain ⟨rfl, -⟩ : kind = .ident ∧ _ := by simpa using hk
    cases hr
    exact .token rfl isGap_space rfl (.inl rfl)
  case handlerName =>
    obtain ⟨rfl, hr⟩ := Option.ite_none_right_eq_some.1 h
    cases hr
    exact .token rfl isGap_space rfl (.inl rfl)
  case elementEnd | pairColon | assertionEnd =>
    obtain ⟨rfl, hr⟩ := Option.ite_none_right_eq_some.1 h
    cases hr
    exact .tight rfl rfl (.inl rfl)
  case loopDeclare =>
    obtain ⟨rfl, hr⟩ := Option.ite_none_right_eq_some.1 h
    cases hr
    exact .apart rfl rfl (.inl rfl)

end

end TinyScript.Layout

namespace TinyScript.Layout

/-! ### Pages -/

def Page.words (p : Page) : List Word :=
  rowWords p.rows ++ p.line

theorem Page.words_write (p : Page) (words : List Word) (c : Scribe) : (p.write words c).words = p.words ++ words := by
  unfold Page.write
  split <;> simp [Page.words]

end TinyScript.Layout

namespace TinyScript.Parsing
open Layout Word

variable {d : Draft} {i : Nat} {p : Page} {rows : List Row} {declared : List String}

theorem Draft.drop_tokens (h : (d.tokenAt i).kind ≠ .eof) :
    d.tokens.toList.drop i = d.tokenAt i :: d.tokens.toList.drop (i + 1) := by
  have hi : i < d.tokens.size := by
    refine Nat.lt_of_not_le fun hle => h ?_
    rw [Draft.tokenAt, Array.getElem?_eq_none hle]
    exact d.eof_kind
  have hat : d.tokenAt i = d.tokens.toList[i] := by
    rw [Draft.tokenAt, Array.getElem?_eq_getElem hi]
    rfl
  rw [hat]
  exact List.drop_eq_getElem_cons hi

/-- After the end of input there is nothing else. -/
theorem Draft.eof_of_mem_drop {t : Token} (h : (d.tokenAt i).kind = .eof) (ht : t ∈ d.tokens.toList.drop i) :
    t.kind = .eof := by
  have hlater (j : Nat) : (d.tokenAt (i + j)).kind = .eof := by
    induction j with
    | zero => exact h
    | succ j ih => exact d.eof_last (i + j) ih
  obtain ⟨j, hj, rfl⟩ := List.mem_iff_getElem.1 ht
  rw [List.length_drop, Array.length_toList] at hj
  have hat : d.tokenAt (i + j) = (d.tokens.toList.drop i)[j] := by
    rw [List.getElem_drop, Draft.tokenAt, Array.getElem?_eq_getElem (by omega)]
    rfl
  exact hat ▸ hlater j

/-- A draft of all tokens of a source, whose numbers are read again from what they are written as. -/
structure Draft.Entire (d : Draft) : Prop where
  start : d.start = 0
  first : d.first.words = [] ∧ d.first.scribe.place = .start
  numbers : ∀ i, Renewed (d.tokenAt i).kind (d.tokenAt i).literal

/-- What is written on a page is what is left of the tokens that were copied. -/
theorem Copied.retains (h : Copied d i p) (hd : d.Entire) : ∃ m, p.scribe.place.Passes m ∧
    saying p.words ++ gists (mend m (d.tokens.toList.drop i)) = gists (mend .plain d.tokens.toList) := by
  induction h with
  | start =>
    obtain ⟨hstart, ⟨hwords, hplace⟩, -⟩ := hd
    refine ⟨.plain, .inl (by rw [hplace]; rfl), ?_⟩
    rw [hwords, hstart]
    rfl
  | @blank i p _ hk ih =>
    obtain ⟨m, hm, heq⟩ := ih
    have heof : (d.tokenAt i).kind ≠ .eof := by simp [hk]
    rw [Draft.drop_tokens heof, mend_cons_ws hk] at heq
    exact ⟨m, hm, heq⟩
  | @token i p words c _ heof hk hstroke ih =>
    obtain ⟨m, hm, heq⟩ := ih
    have hretains : Retains m (d.tokenAt i) (words, c) := stroke_retains hm (hd.numbers i) hstroke
    rw [Draft.drop_tokens heof, mend_cons hk, gists_append, ← hretains.words] at heq
    refine ⟨m.next (d.tokenAt i).kind, by rw [Page.write_scribe]; exact hretains.place, ?_⟩
    rw [Page.words_write, saying_append, List.append_assoc]
    exact heq

/-- The rows of a source say what is left of its tokens. -/
theorem Paged.saying_eq (h : Paged d rows declared) (hd : d.Entire) :
    saying (rowWords rows) = gists (mend .plain d.tokens.toList) := by
  obtain ⟨n, q, hend, hq⟩ := h.pages
  obtain ⟨m, hm, heq⟩ := hend.copied.retains hd
  have hwords : (blankPage rows 0 false declared).words = rowWords rows := List.append_nil _
  have hafter : ∀ t ∈ d.tokens.toList.drop n, t.kind = .eof := fun t => Draft.eof_of_mem_drop hend.eof
  rcases hq with rfl | ⟨words, c, hstroke, hpage⟩
  · obtain rfl : m = .plain := hm.eq ⟨nofun, nofun⟩
    rwa [gists_mend_eof rfl hafter, List.append_nil, hwords] at heq
  · -- the end of input ends the last line
    have hretains : Retains m ⟨.eof, (d.tokenAt n).literal, .start⟩ (words, c) :=
      stroke_retains hm (fun h => nomatch h) hstroke
    have hc : c.place = .start := by
      have hc : Scribe.atLine 0 false declared = c := (congrArg Page.scribe hpage).trans Page.write_scribe
      rw [← hc]
      rfl
    have hlast : m.next .eof = .plain := (hc ▸ hretains.place).eq ⟨nofun, nofun⟩
    have hnothing : saying words = [] := hretains.words.trans (gists_leaves_eof hlast rfl)
    rw [gists_mend_eof hlast hafter, List.append_nil] at heq
    rw [← hwords, hpage, Page.words_write, saying_append, hnothing, List.append_nil, heq]

theorem saying_of_paged {s : State} {hs : s.Linked} {known : List Signature}
    (h : Paged ((Draft.ofState s hs).whole known) rows declared)
    (hnumbers : ∀ i, Renewed (s.tokenAt i).kind (s.tokenAt i).literal) :
    saying (rowWords rows) = gists (mend .plain s.tokens.toList) :=
  h.saying_eq ⟨rfl, ⟨rfl, rfl⟩, hnumbers⟩

end TinyScript.Parsing

namespace TinyScript
open Layout Parsing

variable {source : String} {prelude : Prelude} {p : Program}

/-- No number in a source is infinite. -/
def FiniteNumbers (source : String) : Prop :=
  ∀ t ∈ (Token.scan source).toList, t.kind = .numLit → ∀ x ∈ Decimal.readFloat? t.literal, x.isFinite

instance (source : String) : Decidable (FiniteNumbers source) :=
  inferInstanceAs (Decidable (∀ t ∈ (Token.scan source).toList, t.kind = .numLit → ∀ x ∈ Decimal.readFloat? t.literal,
    x.isFinite))

theorem readFloat?_infinity : ∃ x, Decimal.readFloat? "+Inf" = some x ∧ x.isFinite = false := by
  have hread : (Decimal.readFloat? "+Inf").any (fun x => !x.isFinite) := by decide +kernel
  obtain ⟨x, hx, hinfinite⟩ := Option.any_eq_true _ _ |>.1 hread
  exact ⟨x, hx, by simpa using hinfinite⟩

section
variable (h : Program.parse source prelude = .ok p) (hnumbers : ReadsNumbersBack source)
include h hnumbers

/-- The rows of a source say what is left of its tokens. -/
theorem saying_rows (hfinite : FiniteNumbers source) :
    saying (rowWords (shown (stmtsRows 0 p.stmts))) = gists (mend .plain (Token.scan source).toList) := by
  have hlegal := legal_of_parse h
  obtain ⟨s, hcopied⟩ := copied_of_parse h
  obtain ⟨known, -, declared, hpaged⟩ := hcopied.paged
  have hnum (i : Nat) : Renewed ((State.start source prelude).tokenAt i).kind
      ((State.start source prelude).tokenAt i).literal := by
    intro hk x hx
    have hmem : (State.start source prelude).tokenAt i ∈ (Token.scan source).toList :=
      tokenAt_mem hlegal (by rw [hk]; nofun)
    exact hnumbers _ hmem hk x hx (hfinite _ hmem hk x hx)
  rw [saying_shown (blankRows_stmts 0 p.stmts), saying_of_paged hpaged hnum, start_tokens hlegal]

/-- The text of a program is scanned as the words of its rows. -/
theorem spoken_format : Spoken (rowWords (shown (stmtsRows 0 p.stmts)))
    ((Token.scan p.format).toList.map fun t => (t.kind, t.literal)) := by
  obtain ⟨s, hcopied⟩ := copied_of_parse h
  obtain ⟨known, -, declared, hpaged⟩ := hcopied.paged
  have hsourced : (Draft.ofState (State.start source prelude) (start_linked (legal_of_parse h))).Sourced :=
    sourced_start (legal_of_parse h) hnumbers
  have hdrawn := hpaged.drawn rfl (hsourced.whole known)
  obtain ⟨hjointed, hsound⟩ := (hdrawn.shown rfl (blankRows_stmts 0 p.stmts)).jointed
  rw [Program.format_eq]
  exact spoken_scan hjointed hsound

/-- The canonical layout has the tokens of the source, apart from those that are passed unseen. -/
theorem Program.format_keeps_tokens (hfinite : FiniteNumbers source) :
    gists (Token.scan p.format).toList = gists (mend .plain (Token.scan source).toList) := by
  have hrows := saying_rows h hnumbers hfinite
  have hno : infinity ∉ rowWords (shown (stmtsRows 0 p.stmts)) := by
    intro hinfinity
    obtain ⟨x, hx, hinfinite⟩ := readFloat?_infinity
    have hsaid : gist (wordKind infinity) (wordLiteral infinity) = [Gist.number (some x)] :=
      congrArg (fun v => [Gist.number v]) hx
    have hmem : Gist.number (some x) ∈ saying (rowWords (shown (stmtsRows 0 p.stmts))) :=
      List.mem_flatMap.2 ⟨infinity, hinfinity, hsaid ▸ List.mem_singleton_self _⟩
    rw [hrows] at hmem
    obtain ⟨t, ht, hk, hvalue⟩ := number_mem_mend hmem
    rw [hfinite t ht hk x hvalue] at hinfinite
    cases hinfinite
  rw [← hrows, ← (spoken_format h hnumbers).gists hno, List.flatMap_map]
  rfl

end

/-- A function with a sign in the place of a colon, and a name after its end. -/
def looseSource : String :=
  "func sum:num a:num b=num // both\nreturn a+b\nend sum\nx := [1.50 // half\n (sum 1 2)]\nprint x\n"

theorem looseSource_keeps_tokens : ∃ p, Program.parse looseSource .standard = .ok p ∧ ReadsNumbersBack looseSource ∧
    FiniteNumbers looseSource ∧
    gists (Token.scan p.format).toList = gists (mend .plain (Token.scan looseSource).toList) := by
  have hparse : (Program.parse looseSource .standard).toOption.isSome := by decide +kernel
  have hnumbers : ReadsNumbersBack looseSource := by decide +kernel
  have hfinite : FiniteNumbers looseSource := by decide +kernel
  cases hp : Program.parse looseSource .standard with
  | error problems => rw [hp] at hparse; cases hparse
  | ok p => exact ⟨p, rfl, hnumbers, hfinite, Program.format_keeps_tokens hp hnumbers hfinite⟩

end TinyScript
