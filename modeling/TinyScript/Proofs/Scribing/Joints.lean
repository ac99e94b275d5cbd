import TinyScript.Proofs.Scribing.Again
import TinyScript.Proofs.Token.Neighbours

/-!
# What a scribe puts next to each other

The place of a scribe tells how its last word ends, so that the next one does not run into it.
-/

namespace TinyScript.Layout
open Word

/-! ### Places and what comes before them -/

/-- The kinds of tokens that a place can come after. -/
def Place.after : Place → TokenKind → Bool
  | .start, k | .element .comment, k | .element (.newline _), k => k == .nl
  | .named _, k | .pairColon, k | .result, k | .paramColon, k | .loopDeclare, k => k == .ident
  | .operand _ .none, k => k == .lParen || k == .lBracket || k == .colon
  | .operand _ .tight, k => k == .minus || k == .bang || (BinaryOp.ofToken? k).isSome
  | .operand _ .space, k => k.isFixed
  | .operator, k =>
    k == .ident || k == .numLit || k == .stringLit || k == .true || k == .false || k == .rParen || k == .rBracket
      || k == .rCurly
  | .argument, k => k == .ident || k == .range
  | .dot, k => k == .dot
  | .element .start, k => k == .lBracket || k == .lCurly
  | .element .element, _ => false
  | .elementEnd, k | .closed, k => k == .comment
  | .type _, k => k == .colon || k == .lParen || k == .rBracket || k == .rCurly
  | .typeEnd _ map, k => k == if map then .lCurly else .lBracket
  | .assertionEnd, k => k == .num || k == .string || k == .bool || k == .any
  | .funcName, k => k == .func
  | .handlerName, k => k == .on
  | .params, k => k == .ident || k == .num || k == .string || k == .bool || k == .any
  | .loopVar, k => k == .for
  | .loopRange, k => k == .for || k == .declare
  | .otherwise, k => k == .else
  | .finish, k => k == .break || k == .dot3 || k == .num || k == .string || k == .bool || k == .any
  | .ended, k | .rest, k => k == .end

/-- The scribe can have come to its place with a token of the kind. -/
def Scribe.After (c : Scribe) (kind : TokenKind) : Prop :=
  match c.place with
  | .start => kind = .nl ∧ c = .atLine c.level c.inBody c.declared
  | place => place.after kind

/-- Whether what is written at a place may stand right after the token before it only because it does so in the
source. -/
def Place.adjoins : Place → Bool
  | .operand _ .tight | .operator => true
  | _ => false

/-- The token that is written for one. -/
inductive Copies (kind : TokenKind) (literal : String) : TokenKind → String → Prop where
  | same (h : kind = .ident ∨ kind = .stringLit) : Copies kind literal kind literal
  | sign (h : kind.isFixed) : Copies kind literal kind ""
  | comment (h : kind = .comment) : Copies kind literal .comment (Text.trim literal)
  | number {x : Float} (h : kind = .numLit) (hx : Decimal.readFloat? literal = some x) :
    Copies kind literal .numLit (Number.text x)
  | lineEnd (h : kind = .eof) : Copies kind literal .nl ""
  | colon : Copies kind literal .colon ""

/-- What is written for a token after one of the kind `last`, with the place that it leads to. -/
inductive Penned (last kind : TokenKind) (literal : String) : List Word × Scribe → Prop where
  | nothing {c : Scribe} (hafter : c.place.after last) (hplace : c.place.adjoins = false) (hstart : c.place ≠ .start) :
    Penned last kind literal ([], c)
  | token {gap : List Word} {kind' : TokenKind} {literal' : String} {c : Scribe} (hgap : IsGap gap)
      (hjoin : last.runsInto (if gap.isEmpty then kind' else .ws) = false) (hcopy : Copies kind literal kind' literal')
      (hafter : c.After kind') (hsame : c.place.adjoins → kind' = kind) :
      Penned last kind literal (gap ++ [token kind' literal'], c)

namespace Penned
variable {last kind kind' : TokenKind} {literal literal' : String} {gap : List Word} {c : Scribe}

/-- A sign after a gap. -/
theorem sign (hgap : IsGap gap) (hjoin : last.runsInto (if gap.isEmpty then kind else .ws) = false)
    (hkind : kind.isFixed)
    (hafter : c.After kind) : Penned last kind literal (gap ++ [Word.sign kind], c) :=
  .token hgap hjoin (.sign hkind) hafter fun _ => rfl

/-- A sign without a gap. -/
theorem tight (hjoin : last.runsInto kind = false) (hkind : kind.isFixed) (hafter : c.After kind) :
    Penned last kind literal ([Word.sign kind], c) :=
  sign isGap_nil hjoin hkind hafter

/-- A sign after a space. -/
theorem apart (hjoin : last.runsInto .ws = false) (hkind : kind.isFixed) (hafter : c.After kind) :
    Penned last kind literal ([space, Word.sign kind], c) :=
  sign isGap_space hjoin hkind hafter

/-- The end of a line. -/
theorem lineEnd (hkind : kind = .nl ∨ kind = .eof) (level : Nat) (inBody : Bool) (declared : List String) :
    Penned last kind literal ([newline], .atLine level inBody declared) := by
  have hjoin : last.runsInto .nl = false := by cases last <;> rfl
  rcases hkind with rfl | rfl
  · exact .tight hjoin rfl ⟨rfl, rfl⟩
  · exact .token isGap_nil hjoin (.lineEnd rfl) ⟨rfl, rfl⟩ nofun

end Penned

/-! ### Strokes -/

section
variable {fn : String → Bool} {c : Scribe} {last kind : TokenKind} {literal : String} {blank first : Bool}
  {gap : List Word} {r : List Word × Scribe}

theorem runsInto_eq_false {next : TokenKind} (hlast : last ≠ .comment) (hnext : next.isSign)
    (hsign : next ≠ .assign ∧ next ≠ .eq ∧ next ≠ .slash ∧ next ≠ .dot ∧ next ≠ .dot3) :
    last.runsInto next = false := by
  obtain ⟨hassign, heq, hslash, hdot, hdot3⟩ := hsign
  cases next <;> first | (cases hnext; done) | contradiction | (cases last <;> first | contradiction | rfl)

theorem runsInto_ws (hcomment : last ≠ .comment) (hws : last ≠ .ws) : last.runsInto .ws = false := by
  cases last <;> first | contradiction | rfl

theorem finishStroke_penned (hcomment : last ≠ .comment) (hws : last ≠ .ws) (h : finishStroke c kind literal = some r) :
    Penned last kind literal r := by
  unfold finishStroke at h
  split at h
  · cases h
    exact .lineEnd (.inl rfl) _ _ _
  · cases h
    exact .lineEnd (.inr rfl) _ _ _
  · cases h
    exact .token isGap_space (runsInto_ws hcomment hws) (.comment rfl) rfl nofun
  · cases h

theorem closingStroke_penned (hcomment : last ≠ .comment) (hws : last ≠ .ws) {frames : List LineFrame}
    (h : closingStroke c kind literal frames = some r) : Penned last kind literal r := by
  induction frames with
  | nil =>
    unfold closingStroke at h
    split at h
    · next hk =>
      subst hk
      cases h
      exact .apart (runsInto_ws hcomment hws) rfl rfl
    · exact finishStroke_penned hcomment hws h
  | cons f fs ih =>
    cases f with
    | args => exact ih h
    | paren =>
      unfold closingStroke at h
      split at h
      · next hk =>
        subst hk
        cases h
        exact .tight (runsInto_eq_false hcomment rfl (by decide)) rfl rfl
      · cases h
    | index =>
      unfold closingStroke at h
      split at h
      · next hk =>
        subst hk
        cases h
        exact .tight (runsInto_eq_false hcomment rfl (by decide)) rfl rfl
      · split at h
        · next hk =>
          subst hk
          cases h
          exact .tight (runsInto_eq_false hcomment rfl (by decide)) rfl rfl
        · cases h
    | array | map => cases h

theorem operandStroke_penned (hgap : IsGap gap)
    (hjoin : startsOperand kind → last.runsInto (if gap.isEmpty then kind else .ws) = false)
    (h : operandStroke fn c kind literal first gap = some r) : Penned last kind literal r := by
  unfold operandStroke at h
  split at h
  · split at h
    · cases h
      exact .token hgap (hjoin rfl) (.same (.inl rfl)) rfl fun _ => rfl
    · split at h <;> cases h
      exact .token hgap (hjoin rfl) (.same (.inl rfl)) rfl fun _ => rfl
  · obtain ⟨x, hx, rfl⟩ := Option.map_eq_some_iff.1 h
    exact .token hgap (hjoin rfl) (.number rfl hx) rfl fun _ => rfl
  · cases h
    exact .token hgap (hjoin rfl) (.same (.inr rfl)) rfl fun _ => rfl
  all_goals cases h
  all_goals exact .sign hgap (hjoin rfl) rfl rfl

theorem elementStroke_penned {item : Item} (hcomment : last ≠ .comment) (hws : last ≠ .ws)
    (hitem : item = .start → last = .lBracket ∨ last = .lCurly) (hnone : item.nextLine? = none → last = .nl)
    (h : elementStroke fn c kind literal item = some r) : Penned last kind literal r := by
  have hgap := runsInto_ws hcomment hws
  have hnl : last.runsInto .nl = false := runsInto_eq_false hcomment rfl (by decide)
  have hlead (level : Nat) (next : TokenKind) :
      last.runsInto (if (item.lead level).isEmpty then next else .ws) = false := by
    cases item with
    | start => rcases hitem rfl with rfl | rfl <;> rfl
    | element | comment | newline => exact hgap
  have hcommentLead (level : Nat) :
    last.runsInto (if (item.commentLead level).isEmpty then .comment else .ws) = false := by
    cases item <;> exact hgap
  have hback (level : Nat) (close : TokenKind) (hclose : last.runsInto close = false) :
      last.runsInto (if (item.back level).isEmpty then close else .ws) = false := by
    split
    · exact hclose
    · exact hgap
  have hnewline {item' : Item} (hnext : item.nextLine? = some item') : (Place.element item').after .nl := by
    cases item with
    | start | element | comment => cases hnext; rfl
    | newline again => cases again <;> cases hnext; rfl
  have hsame (hnext : item.nextLine? = none) : (Place.element item).after .nl := by
    cases item with
    | start | element | comment => cases hnext
    | newline => rfl
  unfold elementStroke at h
  split at h
  · split at h
    · split at h
      · next hnext =>
        cases h
        exact .tight hnl rfl (hnewline hnext)
      · next hnext =>
        cases h
        obtain rfl := hnone hnext
        exact .nothing (hsame hnext) rfl nofun
    · cases h
      exact .token (item.isGap_commentLead _) (hcommentLead _) (.comment rfl) rfl nofun
    · cases h
      exact .sign (item.isGap_back _) (hback _ _ (runsInto_eq_false hcomment rfl (by decide))) rfl rfl
    · exact operandStroke_penned (item.isGap_lead _) (fun _ => hlead _ _) h
  · split at h
    · split at h
      · next hnext =>
        cases h
        exact .tight hnl rfl (hnewline hnext)
      · next hnext =>
        cases h
        obtain rfl := hnone hnext
        exact .nothing (hsame hnext) rfl nofun
    · cases h
      exact .token (item.isGap_commentLead _) (hcommentLead _) (.comment rfl) rfl nofun
    · cases h
      exact .sign (item.isGap_back _) (hback _ _ (runsInto_eq_false hcomment rfl (by decide))) rfl rfl
    · cases h
      exact .token (item.isGap_lead _) (hlead _ _) (.same (.inl rfl)) rfl nofun
    · cases h
  · cases h

theorem betweenStroke_penned (hcomment : last ≠ .comment) (hws : last ≠ .ws)
    (h : betweenStroke fn c kind literal = some r) : Penned last kind literal r := by
  unfold betweenStroke at h
  split at h
  · split at h
    · next s hs =>
      cases h
      exact operandStroke_penned isGap_space (fun _ => runsInto_ws hcomment hws) hs
    · exact closingStroke_penned hcomment hws h
  · exact elementStroke_penned hcomment hws (fun h : Item.element = .start => nomatch h)
      (fun h : Item.element.nextLine? = none => nomatch h) h

theorem operatorStroke_penned (hafter : Place.operator.after last)
    (hsource : blank = false → last.isWord ∨ last = .numLit → last.runsInto kind = false)
    (h : operatorStroke fn c kind literal blank = some r) : Penned last kind literal r := by
  have hcomment : last ≠ .comment := by rintro rfl; cases hafter
  have hws : last ≠ .ws := by rintro rfl; cases hafter
  have hgap := runsInto_ws hcomment hws
  -- brackets and quotes run into nothing
  have htight (hblank : blank = false) : last.runsInto kind = false := by
    by_cases hk : last.isWord ∨ last = .numLit
    · exact hsource hblank hk
    · cases last <;> first | (cases hafter; done) | exact absurd (.inl rfl) hk | exact absurd (.inr rfl) hk | rfl
  unfold operatorStroke at h
  dsimp only at h
  split at h
  · exact betweenStroke_penned hcomment hws h
  next hbetween =>
  split at h
  · next hop =>
    cases h
    have hfixed : kind.isFixed := by cases kind <;> first | rfl | cases hop
    have hafter : (c.goTo (.operand false (if Scribe.spaced c.frames then .tight else .space))).place.after kind := by
      split
      · show (kind == .minus || kind == .bang || (BinaryOp.ofToken? kind).isSome) = true
        rw [hop, Bool.or_true]
      · exact hfixed
    refine .sign (by split; exacts [isGap_nil, isGap_space]) ?_ hfixed hafter
    cases hspaced : Scribe.spaced c.frames with
    | false => exact hgap
    | true =>
      refine htight ?_
      simpa [hspaced] using hbetween
  split at h
  · next hk =>
    cases h
    obtain ⟨rfl, -⟩ : kind = .lBracket ∧ blank = false := by simpa using hk
    exact .tight (runsInto_eq_false hcomment rfl (by decide)) rfl rfl
  split at h
  · next hk =>
    cases h
    obtain ⟨rfl, hblank⟩ : kind = .dot ∧ blank = false := by simpa using hk
    exact .tight (htight hblank) rfl rfl
  split at h
  · exact betweenStroke_penned hcomment hws h
  · exact closingStroke_penned hcomment hws h

theorem startStroke_penned (h : startStroke c kind literal = some r) : Penned .nl kind literal r := by
  have hfree (next : TokenKind) : TokenKind.nl.runsInto next = false := rfl
  cases kind
  case comment =>
    cases h
    exact .token (isGap_indent c.level) rfl (.comment rfl) rfl nofun
  case ident =>
    cases h
    exact .token (isGap_indent c.level) rfl (.same (.inl rfl)) rfl nofun
  case nl =>
    cases h
    exact .lineEnd (.inl rfl) _ _ _
  case «else» | «end» =>
    cases h
    exact .sign (isGap_indent (c.level - 1)) rfl rfl rfl
  case «return» | «break» | «if» | «while» | «for» | func | on =>
    cases h
    exact .sign (isGap_indent c.level) rfl rfl rfl
  all_goals cases h

theorem paramsStroke_penned (hafter : Place.params.after last) (h : paramsStroke c kind literal = some r) :
    Penned last kind literal r := by
  have hcomment : last ≠ .comment := by rintro rfl; cases hafter
  have hws : last ≠ .ws := by rintro rfl; cases hafter
  unfold paramsStroke at h
  split at h
  · cases h
    exact .token isGap_space (runsInto_ws hcomment hws) (.same (.inl rfl)) rfl nofun
  · cases h
    refine .tight ?_ rfl rfl
    cases last <;> first | (cases hafter; done) | rfl
  · exact finishStroke_penned hcomment hws h

theorem rangeStroke_penned (hcomment : last ≠ .comment) (hws : last ≠ .ws) (h : rangeStroke c kind = some r) :
    Penned last kind literal r := by
  unfold rangeStroke at h
  split at h
  · next hk =>
    subst hk
    cases h
    exact .apart (runsInto_ws hcomment hws) rfl rfl
  · cases h

theorem namedStroke_penned {name : String} (h : namedStroke fn c kind literal name blank = some r) :
    Penned .ident kind literal r := by
  unfold namedStroke at h
  split at h
  · split at h <;> cases h
    exact .apart rfl rfl rfl
  · split at h <;> cases h
    exact .tight rfl rfl rfl
  · cases h
    exact .tight rfl rfl rfl
  · cases h
    exact .apart rfl rfl rfl
  · split at h
    · exact betweenStroke_penned nofun nofun h
    · split at h
      · next hk =>
        cases h
        obtain ⟨⟨rfl, -⟩, -⟩ : (kind = .lBracket ∧ _) ∧ _ := by simpa using hk
        exact .tight rfl rfl rfl
      · cases h

/-- No blank and no comment comes before a place in a line. -/
theorem Place.after_ne {place : Place} (h : place.after last) (hend : place ≠ .elementEnd ∧ place ≠ .closed) :
    last ≠ .comment ∧ last ≠ .ws := by
  constructor <;>
  · rintro rfl
    cases place with
    | operand _ lead => cases lead <;> cases h
    | element item => cases item <;> cases h
    | typeEnd _ map => cases map <;> cases h
    | elementEnd => exact hend.1 rfl
    | closed => exact hend.2 rfl
    | _ => cases h

theorem operandPlace_penned {lead : Lead} (hafter : (Place.operand first lead).after last)
    (hsource : lead = .tight → blank = false → last.isWord ∨ last = .numLit → last.runsInto kind = false)
    (h : stroke fn (c.goTo (.operand first lead)) kind literal blank = some r) : Penned last kind literal r := by
  obtain ⟨hcomment, hws⟩ := Place.after_ne hafter ⟨nofun, nofun⟩
  have hjoin (hblank : ¬ (lead = .tight && blank) = true) (hstarts : startsOperand kind) :
      last.runsInto (if lead.words.isEmpty then kind else .ws) = false := by
    have hassign : kind ≠ .assign ∧ kind ≠ .eq ∧ kind ≠ .slash ∧ kind ≠ .comment := by
      refine ⟨?_, ?_, ?_, ?_⟩ <;> rintro rfl <;> cases hstarts
    cases lead with
    | space => exact runsInto_ws hcomment hws
    | none => cases last <;> first | (cases hafter; done) | rfl | simp [TokenKind.runsInto, Lead.words, hassign]
    | tight =>
      by_cases hk : last.isWord ∨ last = .numLit
      · exact hsource rfl (by simpa using hblank) hk
      · cases last <;> first | (cases hafter; done) | exact absurd (.inl rfl) hk | rfl | simp [TokenKind.runsInto,
          Lead.words, hassign]
  simp only [stroke, Scribe.goTo] at h
  split at h
  · cases h
  next hblank =>
  split at h
  · next s hs =>
    cases h
    exact operandStroke_penned (isGap_leadWords lead) (hjoin hblank) hs
  · exact closingStroke_penned hcomment hws h

/-- What is written at a place does not run into what comes before. -/
theorem stroke_penned (hafter : c.place.after last)
    (hsource : c.place.adjoins → blank = false → last.isWord ∨ last = .numLit → last.runsInto kind = false)
    (h : stroke fn c kind literal blank = some r) : Penned last kind literal r := by
  cases hplace : c.place <;> rw [hplace] at hafter hsource
  case operand first lead =>
    have hc : c.goTo (.operand first lead) = c := by rw [← hplace]; rfl
    rw [← hc] at h
    exact operandPlace_penned hafter (fun htight => hsource (by rw [htight]; rfl)) h
  all_goals simp only [stroke, hplace] at h
  case start =>
    obtain rfl : last = .nl := beq_iff_eq.1 hafter
    exact startStroke_penned h
  case named =>
    obtain rfl : last = .ident := beq_iff_eq.1 hafter
    exact namedStroke_penned h
  case operator => exact operatorStroke_penned hafter (hsource rfl) h
  case params => exact paramsStroke_penned hafter h
  case elementEnd =>
    obtain ⟨rfl, hr⟩ := Option.ite_none_right_eq_some.1 h
    cases hr
    exact .tight (by rw [beq_iff_eq.1 hafter]; rfl) rfl rfl
  case closed =>
    obtain ⟨hk, hr⟩ := Option.ite_none_right_eq_some.1 h
    cases hr
    exact .lineEnd hk _ _ _
  -- the places that are left come after no comment and no blank
  all_goals have hlast := Place.after_ne hafter ⟨by simp, by simp⟩
  case argument => exact betweenStroke_penned hlast.1 hlast.2 h
  case element item =>
    refine elementStroke_penned hlast.1 hlast.2 ?_ ?_ h
    · rintro rfl
      simpa [Place.after] using hafter
    · intro hnone
      cases item with
      | newline => exact beq_iff_eq.1 hafter
      | start | element | comment => cases hnone
  case finish => exact finishStroke_penned hlast.1 hlast.2 h
  case loopRange => exact rangeStroke_penned hlast.1 hlast.2 h
  case ended =>
    unfold endedStroke at h
    split at h
    iterate 3 exact finishStroke_penned hlast.1 hlast.2 h
    cases h
    exact .nothing hafter rfl (by simp)
  case paramColon =>
    obtain rfl : last = .ident := beq_iff_eq.1 hafter
    cases h
    exact .token isGap_nil rfl .colon rfl fun h => by cases h
  case typeEnd site map =>
    generalize hclose : (if map then TokenKind.rCurly else TokenKind.rBracket) = close at h
    have hfixed : close.isFixed ∧ (Place.type site).after close ∧ last.runsInto close = false := by
      cases map <;> subst hclose <;> exact ⟨rfl, rfl, runsInto_eq_false hlast.1 rfl (by decide)⟩
    obtain ⟨rfl, hr⟩ := Option.ite_none_right_eq_some.1 h
    cases hr
    exact .tight hfixed.2.2 hfixed.1 hfixed.2.1
  case pairColon | assertionEnd =>
    obtain ⟨rfl, hr⟩ := Option.ite_none_right_eq_some.1 h
    cases hr
    exact .tight (runsInto_eq_false hlast.1 rfl (by decide)) rfl rfl
  case dot =>
    obtain rfl : last = .dot := beq_iff_eq.1 hafter
    split at h
    · cases h
      exact .token isGap_nil rfl (.same (.inl rfl)) rfl fun _ => rfl
    · cases h
      exact .tight rfl rfl rfl
    · cases h
  case type site =>
    have hjoin {next : TokenKind} (hnext : next ≠ .assign ∧ next ≠ .eq) : last.runsInto next = false := by
      cases last <;> first | (cases hafter; done) | rfl | simp [TokenKind.runsInto, hnext]
    have hsite {k : TokenKind} (hk : k = .num ∨ k = .string ∨ k = .bool ∨ k = .any) : (c.goTo site.after).After k := by
      rcases hk with rfl | rfl | rfl | rfl <;> cases site <;> rfl
    split at h <;> cases h
    · exact .tight (hjoin (by decide)) rfl (hsite (.inl rfl))
    · exact .tight (hjoin (by decide)) rfl (hsite (.inr (.inl rfl)))
    · exact .tight (hjoin (by decide)) rfl (hsite (.inr (.inr (.inl rfl))))
    · exact .tight (hjoin (by decide)) rfl (hsite (.inr (.inr (.inr rfl))))
    · exact .tight (hjoin (by decide)) rfl rfl
    · exact .tight (hjoin (by decide)) rfl rfl
  case result =>
    obtain rfl : last = .ident := beq_iff_eq.1 hafter
    split at h
    · next hk =>
      subst hk
      cases h
      exact .tight rfl rfl rfl
    · exact paramsStroke_penned rfl h
  case rest =>
    split at h
    · next hk =>
      cases h
      exact .lineEnd hk _ _ _
    · cases h
      exact .nothing (hplace ▸ hafter) (by rw [hplace]; rfl) (by simp [hplace])
  all_goals have hgap := runsInto_ws hlast.1 hlast.2
  case funcName =>
    obtain ⟨hk, hr⟩ := Option.ite_none_right_eq_some.1 h
    obtain ⟨rfl, -⟩ : kind = .ident ∧ _ := by simpa using hk
    cases hr
    exact .token isGap_space hgap (.same (.inl rfl)) rfl (by simp)
  case handlerName =>
    obtain ⟨rfl, hr⟩ := Option.ite_none_right_eq_some.1 h
    cases hr
    exact .token isGap_space hgap (.same (.inl rfl)) rfl (by simp)
  case loopDeclare =>
    obtain ⟨rfl, hr⟩ := Option.ite_none_right_eq_some.1 h
    cases hr
    exact .apart hgap rfl rfl
  case loopVar =>
    split at h
    · next hk =>
      subst hk
      cases h
      exact .token isGap_space hgap (.same (.inl rfl)) rfl (by simp)
    · exact rangeStroke_penned hlast.1 hlast.2 h
  case otherwise =>
    split at h
    · next hk =>
      subst hk
      cases h
      exact .apart hgap rfl rfl
    · exact finishStroke_penned hlast.1 hlast.2 h

end

end TinyScript.Layout
