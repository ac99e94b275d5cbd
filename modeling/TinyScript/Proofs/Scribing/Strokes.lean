import TinyScript.Proofs.Scribing.Scribe

/-!
# What strokes are like

Which tokens an operand starts or ends with, and that a scribe forgets no declared variable.
-/

namespace TinyScript.Layout

/-! ### Kinds of tokens -/

/-- Whether an operand starts with a token of the kind. -/
def startsOperand : TokenKind → Bool
  | .ident | .numLit | .stringLit | .true | .false | .lBracket | .lCurly | .lParen | .bang
  | .minus => true
  | _ => false

/-- Whether a line ends at a token of the kind. -/
def endsLine : TokenKind → Bool
  | .nl | .eof | .comment => true
  | _ => false

/-- Whether what is open around an operand may end at a token of the kind. -/
def closesOperand : TokenKind → Bool
  | .rParen | .rBracket | .colon | .assign | .nl | .eof | .comment => true
  | _ => false

section
variable {fn : String → Bool} {c : Scribe} {kind : TokenKind} {literal : String} {gap : List Word}
  {first : Bool}

theorem closingStroke_eq_none {frames : List LineFrame} (hk : closesOperand kind = false) :
    closingStroke c kind literal frames = none := by
  induction frames with
  | nil => cases kind <;> first | rfl | cases hk
  | cons f fs ih =>
    cases f with
    | args => exact ih
    | paren | index => cases kind <;> first | rfl | cases hk
    | array | map => rfl

theorem operandStroke_eq_none (hk : startsOperand kind = false) :
    operandStroke fn c kind literal first gap = none := by
  cases kind <;> first | rfl | cases hk

theorem closesOperand_of_startsOperand (hk : startsOperand kind ∨ kind = .plus) : closesOperand kind = false := by
  cases kind <;> simp_all [startsOperand, closesOperand]

theorem startsOperand_of_closesOperand (hk : closesOperand kind ∨ kind = .plus) : startsOperand kind = false := by
  cases kind <;> simp_all [startsOperand, closesOperand]

end

/-! ### Declared variables -/

section
variable {fn : String → Bool} {c : Scribe} {kind : TokenKind} {literal : String} {blank first : Bool}
  {gap : List Word} {r : List Word × Scribe}

theorem finishStroke_declared (h : finishStroke c kind literal = some r) : r.2.declared = c.declared := by
  unfold finishStroke at h
  split at h <;> cases h <;> rfl

theorem closingStroke_declared {frames : List LineFrame} (h : closingStroke c kind literal frames = some r) :
    r.2.declared = c.declared := by
  induction frames with
  | nil =>
    unfold closingStroke at h
    split at h
    · cases h
      rfl
    · have h := finishStroke_declared h
      exact h
  | cons f fs ih =>
    cases f with
    | args => exact ih h
    | paren =>
      unfold closingStroke at h
      split at h <;> cases h
      rfl
    | index =>
      unfold closingStroke at h
      split at h
      · cases h
        rfl
      · split at h <;> cases h
        rfl
    | array | map => cases h

theorem operandStroke_declared (h : operandStroke fn c kind literal first gap = some r) :
    r.2.declared = c.declared := by
  unfold operandStroke at h
  split at h
  · split at h
    · cases h
      rfl
    · split at h <;> cases h
      rfl
  · obtain ⟨x, -, rfl⟩ := Option.map_eq_some_iff.1 h
    rfl
  all_goals cases h
  all_goals rfl

theorem elementStroke_declared {last : Item} (h : elementStroke fn c kind literal last = some r) :
    r.2.declared = c.declared := by
  unfold elementStroke at h
  split at h
  · split at h
    · split at h <;> cases h <;> rfl
    · cases h
      rfl
    · cases h
      rfl
    · exact operandStroke_declared h
  · split at h
    · split at h <;> cases h <;> rfl
    all_goals cases h
    all_goals rfl
  · cases h

theorem betweenStroke_declared (h : betweenStroke fn c kind literal = some r) :
    r.2.declared = c.declared := by
  unfold betweenStroke at h
  split at h
  · split at h
    · next hr =>
      cases h
      exact operandStroke_declared hr
    · exact closingStroke_declared h
  · exact elementStroke_declared h

theorem operatorStroke_declared (h : operatorStroke fn c kind literal blank = some r) :
    r.2.declared = c.declared := by
  unfold operatorStroke at h
  dsimp only at h
  split at h
  · exact betweenStroke_declared h
  split at h
  · cases h
    rfl
  split at h
  · cases h
    rfl
  split at h
  · cases h
    rfl
  split at h
  · exact betweenStroke_declared h
  · exact closingStroke_declared h

theorem startStroke_declared (h : startStroke c kind literal = some r) : r.2.declared = c.declared := by
  cases kind <;> cases h <;> rfl

theorem rangeStroke_declared (h : rangeStroke c kind = some r) : r.2.declared = c.declared := by
  unfold rangeStroke at h
  split at h <;> cases h
  rfl

theorem paramsStroke_declared (h : paramsStroke c kind literal = some r) :
    c.declared ⊆ r.2.declared := by
  unfold paramsStroke at h
  split at h
  · cases h
    exact List.subset_cons_self _ _
  · cases h
    exact List.Subset.refl _
  · rw [finishStroke_declared h]
    exact List.Subset.refl _

theorem namedStroke_declared {name : String} (h : namedStroke fn c kind literal name blank = some r) :
    c.declared ⊆ r.2.declared := by
  unfold namedStroke at h
  split at h
  · split at h <;> cases h
    exact List.Subset.refl _
  · split at h <;> cases h
    exact List.Subset.refl _
  · cases h
    exact List.subset_cons_self _ _
  · cases h
    exact List.subset_cons_self _ _
  · split at h
    · rw [betweenStroke_declared h]
      exact List.Subset.refl _
    · split at h <;> cases h
      exact List.Subset.refl _

/-- What was declared stays declared. -/
theorem stroke_declared (h : stroke fn c kind literal blank = some r) : c.declared ⊆ r.2.declared := by
  have hsame (h : r.2.declared = c.declared) : c.declared ⊆ r.2.declared := h ▸ List.Subset.refl _
  cases hplace : c.place <;> simp only [stroke, hplace] at h
  case start => exact hsame (startStroke_declared h)
  case named => exact namedStroke_declared h
  case operand first lead =>
    split at h
    · cases h
    · split at h
      · next hr =>
        cases h
        exact hsame (operandStroke_declared hr)
      · exact hsame (closingStroke_declared h)
  case operator => exact hsame (operatorStroke_declared h)
  case argument => exact hsame (betweenStroke_declared h)
  case element => exact hsame (elementStroke_declared h)
  case finish => exact hsame (finishStroke_declared h)
  case params => exact paramsStroke_declared h
  case loopRange => exact hsame (rangeStroke_declared h)
  case result =>
    split at h
    · cases h
      exact hsame rfl
    · exact paramsStroke_declared h
  case loopVar =>
    split at h
    · cases h
      exact List.subset_cons_self _ _
    · exact hsame (rangeStroke_declared h)
  case otherwise =>
    split at h
    · cases h
      exact hsame rfl
    · exact hsame (finishStroke_declared h)
  case ended =>
    unfold endedStroke at h
    split at h
    · exact hsame (finishStroke_declared h)
    · exact hsame (finishStroke_declared h)
    · exact hsame (finishStroke_declared h)
    · cases h
      exact hsame rfl
  case paramColon =>
    cases h
    exact hsame rfl
  case typeEnd site map =>
    generalize (if map then TokenKind.rCurly else TokenKind.rBracket) = close at h
    split at h <;> cases h
    exact hsame rfl
  all_goals
    split at h <;> cases h <;> exact hsame rfl

end

/-! ### Strokes at a place -/

/-- Whether an operand goes on with a token of the kind. -/
def continuesOperand (kind : TokenKind) : Bool :=
  (BinaryOp.ofToken? kind).isSome || kind == .lBracket || kind == .dot

section
variable {fn : String → Bool} {c : Scribe} {kind : TokenKind} {literal : String} {blank first : Bool}
  {gap : List Word} {lead : Lead} {fs : List LineFrame}

theorem operandStroke_first (h : first → kind = .ident → fn literal = false) :
    operandStroke fn c kind literal first gap = operandStroke fn c kind literal false gap := by
  cases first with
  | false => rfl
  | true =>
    cases kind with
    | ident =>
      unfold operandStroke
      rw [h rfl rfl]
      rfl
    | _ => rfl

theorem stroke_operand (hplace : c.place = .operand first lead) (hk : startsOperand kind)
    (htight : lead = .tight → blank = false) (hfn : first → kind = .ident → fn literal = false) :
    stroke fn c kind literal blank = operandStroke fn c kind literal false lead.words := by
  have hlead : ¬ (lead = .tight && blank) = true := by
    cases lead with
    | tight => simp [htight rfl]
    | none | space => simp
  unfold stroke
  rw [hplace]
  dsimp only
  rw [if_neg hlead, operandStroke_first hfn, closingStroke_eq_none (closesOperand_of_startsOperand (.inl hk))]
  split
  · next h => rw [h]
  · next h => rw [h]

theorem stroke_operand_close (hplace : c.place = .operand first lead) (hk : closesOperand kind)
    (hlead : lead ≠ .tight) : stroke fn c kind literal blank = closingStroke c kind literal c.frames := by
  have hlead : ¬ (lead = .tight && blank) = true := by simp [hlead]
  unfold stroke
  rw [hplace]
  dsimp only
  rw [if_neg hlead, operandStroke_eq_none (startsOperand_of_closesOperand (.inl hk))]

theorem betweenStroke_operand (hframes : c.frames = .args :: fs) (hk : startsOperand kind) :
    betweenStroke fn c kind literal = operandStroke fn c kind literal false [Word.space] := by
  rw [betweenStroke, hframes]
  dsimp only
  rw [closingStroke_eq_none (closesOperand_of_startsOperand (.inl hk))]
  split
  · next h => rw [h]
  · next h => rw [h]

theorem betweenStroke_close (hframes : c.frames = .args :: fs) (hk : closesOperand kind) :
    betweenStroke fn c kind literal = closingStroke c kind literal fs := by
  rw [betweenStroke, hframes]
  dsimp only
  rw [operandStroke_eq_none (startsOperand_of_closesOperand (.inl hk)), closingStroke]

/-- An expression goes on with an operator without a blank where blanks separate expressions. -/
theorem stroke_binary {op : BinaryOp} (hplace : c.place = .operator) (hop : BinaryOp.ofToken? kind = some op)
    (hblank : Scribe.spaced c.frames = true → blank = false) :
    stroke fn c kind literal blank =
      some ((if Scribe.spaced c.frames then [] else [Word.space]) ++ [Word.sign kind],
        c.goTo (.operand false (if Scribe.spaced c.frames then .tight else .space))) := by
  have hgo : (Scribe.spaced c.frames && blank) = false := by
    cases h : Scribe.spaced c.frames with
    | false => rfl
    | true => rw [hblank h]; rfl
  unfold stroke
  rw [hplace]
  dsimp only
  rw [operatorStroke]
  rw [hgo, if_neg Bool.false_ne_true, hop, if_pos Option.isSome_some]

theorem stroke_index (hplace : c.place = .operator) :
    stroke fn c .lBracket literal false =
      some ([Word.sign .lBracket], c.enter .index (.operand true .none)) := by
  unfold stroke
  rw [hplace]
  dsimp only
  rw [operatorStroke]
  simp [BinaryOp.ofToken?]

theorem stroke_dot (hplace : c.place = .operator) :
    stroke fn c .dot literal false = some ([Word.sign .dot], c.goTo .dot) := by
  unfold stroke
  rw [hplace]
  dsimp only
  rw [operatorStroke]
  simp [BinaryOp.ofToken?]

/-- An expression ends before a token that it does not go on with. -/
theorem stroke_end (hplace : c.place = .operator) (hk : continuesOperand kind = false ∨ blank = true)
    (hspaced : Scribe.spaced c.frames = true) :
    stroke fn c kind literal blank = betweenStroke fn c kind literal := by
  unfold stroke
  rw [hplace]
  dsimp only
  rw [operatorStroke]
  rw [hspaced, Bool.true_and, if_pos rfl, if_pos rfl]
  cases blank with
  | true => rfl
  | false =>
    simp only [continuesOperand, Bool.or_eq_false_iff, beq_eq_false_iff_ne, Bool.false_eq_true, or_false] at hk
    obtain ⟨⟨hop, hindex⟩, hdot⟩ := hk
    simp [hop, hindex, hdot]

theorem stroke_close (hplace : c.place = .operator) (hk : closesOperand kind)
    (hspaced : Scribe.spaced c.frames = false) :
    stroke fn c kind literal blank = closingStroke c kind literal c.frames := by
  have hop : (BinaryOp.ofToken? kind).isSome = false := by cases kind <;> first | rfl | cases hk
  have hindex : kind ≠ .lBracket := by rintro rfl; cases hk
  have hdot : kind ≠ .dot := by rintro rfl; cases hk
  unfold stroke
  rw [hplace]
  dsimp only
  rw [operatorStroke]
  simp [hspaced, hop, hindex, hdot]

end

end TinyScript.Layout
