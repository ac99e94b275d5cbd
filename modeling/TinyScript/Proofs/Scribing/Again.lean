import TinyScript.Proofs.Scribing.Strokes
import TinyScript.Proofs.Text.Trimming

/-!
# Copying a copy

What a scribe has written it copies as it is: from the same place on it writes the same word for each
word, and knows the same afterwards.
-/

namespace TinyScript.Layout
open Word

/-- At most one blank. -/
def IsGap (gap : List Word) : Prop :=
  gap = [] ∨ ∃ n, gap = [blank n]

theorem isGap_nil : IsGap [] := .inl rfl

theorem isGap_space : IsGap [space] := .inr ⟨0, rfl⟩

theorem isGap_indent (level : Nat) : IsGap (indent level) := by
  cases level with
  | zero => exact isGap_nil
  | succ level => exact .inr ⟨_, rfl⟩

theorem isGap_leadWords (lead : Lead) : IsGap lead.words := by
  cases lead
  · exact isGap_nil
  · exact isGap_nil
  · exact isGap_space

theorem Item.isGap_lead (level : Nat) (last : Item) : IsGap (last.lead level) := by
  cases last
  · exact isGap_nil
  · exact isGap_space
  · exact isGap_indent (level + 1)
  · exact isGap_indent (level + 1)

theorem Item.isGap_commentLead (level : Nat) (last : Item) : IsGap (last.commentLead level) := by
  cases last
  · exact isGap_space
  · exact isGap_space
  · exact isGap_indent (level + 1)
  · exact isGap_indent (level + 1)

theorem Item.isGap_back (level : Nat) (last : Item) : IsGap (last.back level) := by
  cases last
  · exact isGap_nil
  · exact isGap_nil
  · exact isGap_nil
  · exact isGap_indent _

/-- A number is written so that it is read as the number that is written so. -/
def Legible (kind : TokenKind) (literal : String) : Prop :=
  kind = .numLit → ∃ x, Decimal.readFloat? literal = some x ∧ Number.text x = literal

/-- The words are a token after a gap, which `again` copies as it is if it copies it at all. It does not
copy the sign of an infinite number. Whether there is a blank and the kind of the token are in `K`. -/
inductive Retraced (again : TokenKind → String → Bool → Stroke) (K : Bool → TokenKind → Prop) :
    List Word × Scribe → Prop
  | intro {gap : List Word} {kind : TokenKind} {literal : String} {c : Scribe} (hgap : IsGap gap)
      (hK : K (!gap.isEmpty) kind)
      (hagain : Legible kind literal → ∀ r, again kind literal (!gap.isEmpty) = some r →
        r = (gap ++ [token kind literal], c))
      (hplus : kind = .numLit → again .plus "" (!gap.isEmpty) = none) :
      Retraced again K (gap ++ [token kind literal], c)

/-- Any token. -/
abbrev Anything : Bool → TokenKind → Prop := fun _ _ => True

namespace Retraced
variable {again again' : TokenKind → String → Bool → Stroke} {gap : List Word} {kind : TokenKind}
  {literal : String} {c : Scribe} {r : List Word × Scribe} {K K' : Bool → TokenKind → Prop}

/-- A token that is not a number. -/
theorem same (hgap : IsGap gap) (hK : K (!gap.isEmpty) kind) (hkind : kind ≠ .numLit)
    (h : ∀ r, again kind literal (!gap.isEmpty) = some r → r = (gap ++ [token kind literal], c)) :
    Retraced again K (gap ++ [token kind literal], c) :=
  .intro hgap hK (fun _ => h) fun hk => absurd hk hkind

/-- A token without a gap. -/
theorem tight (hK : K false kind) (hkind : kind ≠ .numLit)
    (h : ∀ r, again kind literal false = some r → r = ([token kind literal], c)) :
    Retraced again K ([token kind literal], c) :=
  same isGap_nil hK hkind h

/-- A token after a space. -/
theorem apart (hK : K true kind) (hkind : kind ≠ .numLit)
    (h : ∀ r, again kind literal true = some r → r = ([space, token kind literal], c)) :
    Retraced again K ([space, token kind literal], c) :=
  same isGap_space hK hkind h

/-- A token that is copied as it is. -/
theorem same_of_eq (hgap : IsGap gap) (hK : K (!gap.isEmpty) kind) (hkind : kind ≠ .numLit)
    (h : again kind literal (!gap.isEmpty) = some (gap ++ [token kind literal], c)) :
    Retraced again K (gap ++ [token kind literal], c) :=
  same hgap hK hkind fun _ hr => Option.some.inj (hr.symm.trans h)

theorem tight_of_eq (hK : K false kind) (hkind : kind ≠ .numLit)
    (h : again kind literal false = some ([token kind literal], c)) : Retraced again K ([token kind literal], c) :=
  same_of_eq isGap_nil hK hkind h

theorem apart_of_eq (hK : K true kind) (hkind : kind ≠ .numLit)
    (h : again kind literal true = some ([space, token kind literal], c)) :
    Retraced again K ([space, token kind literal], c) :=
  same_of_eq isGap_space hK hkind h

/-- What is copied otherwise is not copied at all. -/
theorem mono (h : Retraced again K r) (hK : ∀ b k, K b k → K' b k)
    (hle : ∀ k b, K b k ∨ (k = .plus ∧ K b .numLit) → ∀ l s, again' k l b = some s → again k l b = some s) :
    Retraced again' K' r := by
  cases h with
  | intro hgap hk hagain hplus =>
    refine .intro hgap (hK _ _ hk) (fun hl s hs => hagain hl s (hle _ _ (.inl hk) _ _ hs)) fun hnum => ?_
    refine Option.eq_none_iff_forall_ne_some.2 fun s hs => ?_
    have hnone := hplus hnum
    rw [hle _ _ (.inr ⟨rfl, hnum ▸ hk⟩) _ _ hs] at hnone
    cases hnone

end Retraced

/-- Whether a list of expressions that blanks separate may end or break off at a token of the kind. -/
def endsList (kind : TokenKind) : Bool :=
  closesOperand kind || kind == .rCurly

section
variable {fn fn' : String → Bool} {c : Scribe} {kind : TokenKind} {literal : String}
  {r : List Word × Scribe} {gap : List Word}

theorem finishStroke_retraced (h : finishStroke c kind literal = some r) :
    Retraced (fun k l _ => finishStroke c k l) (fun _ k => endsLine k) r := by
  unfold finishStroke at h
  split at h
  · cases h
    exact .tight_of_eq rfl nofun rfl
  · cases h
    exact .tight_of_eq rfl nofun rfl
  · cases h
    refine .apart rfl nofun fun r hr => ?_
    rw [finishStroke, Text.trim_trim] at hr
    exact (Option.some.inj hr).symm
  · cases h

theorem closingStroke_retraced {frames : List LineFrame} (h : closingStroke c kind literal frames = some r) :
    Retraced (fun k l _ => closingStroke c k l frames) (fun _ k => closesOperand k) r := by
  induction frames with
  | nil =>
    unfold closingStroke at h
    split at h
    · next hk =>
      subst hk
      cases h
      exact .apart_of_eq rfl (by simp) rfl
    · unfold finishStroke at h
      split at h
      · cases h
        exact .tight_of_eq rfl (by simp) rfl
      · cases h
        exact .tight_of_eq rfl (by simp) rfl
      · cases h
        refine .apart rfl (by simp) fun r hr => ?_
        have hr : finishStroke { c with frames := [] } .comment (Text.trim literal) = some r := hr
        rw [finishStroke, Text.trim_trim] at hr
        exact (Option.some.inj hr).symm
      · cases h
  | cons f fs ih =>
    cases f with
    | args => exact ih h
    | paren =>
      unfold closingStroke at h
      split at h
      · next hk =>
        subst hk
        cases h
        exact .tight_of_eq rfl (by simp) rfl
      · cases h
    | index =>
      unfold closingStroke at h
      split at h
      · next hk =>
        subst hk
        cases h
        exact .tight_of_eq rfl (by simp) rfl
      · split at h
        · next hk =>
          subst hk
          cases h
          exact .tight_of_eq rfl (by simp) rfl
        · cases h
    | array | map => cases h

/-- Functions are called alike as long as no variable has the name of one. -/
theorem operandStroke_retraced {first : Bool} (hgap : IsGap gap) (hsub : ∀ name ∈ c.declared, fn' name → fn name)
    (hdeclared : ∀ name ∈ c.declared, fn name → fn' name)
    (h : operandStroke fn c kind literal first gap = some r) :
    Retraced (fun k l _ => operandStroke fn' c k l first gap) (fun b k => b = !gap.isEmpty ∧ startsOperand k) r := by
  cases kind with
  | ident =>
    simp only [operandStroke, Bool.and_eq_true, List.contains_iff_mem] at h
    split at h
    · next hcall =>
      cases h
      refine .same hgap ⟨rfl, rfl⟩ nofun fun r hr => ?_
      simp only [operandStroke, Bool.and_eq_true, List.contains_iff_mem] at hr
      split at hr
      · exact (Option.some.inj hr).symm
      · next hcall' =>
        split at hr
        · next hvar => exact absurd ⟨hcall.1, hdeclared literal hvar hcall.2⟩ hcall'
        · cases hr
    · next hcall =>
      split at h
      · next hvar =>
        have hcall' : ¬ (first = true ∧ fn' literal = true) := fun h' => hcall ⟨h'.1, hsub literal hvar h'.2⟩
        cases h
        refine .same hgap ⟨rfl, rfl⟩ nofun fun r hr => ?_
        simp only [operandStroke, Bool.and_eq_true, List.contains_iff_mem] at hr
        rw [if_neg hcall', if_pos hvar] at hr
        exact (Option.some.inj hr).symm
      · cases h
  | numLit =>
    obtain ⟨x, hx, rfl⟩ := Option.map_eq_some_iff.1 h
    refine .intro hgap ⟨rfl, rfl⟩ (fun hl r hr => ?_) fun _ => rfl
    obtain ⟨y, hy, htext⟩ := hl rfl
    simp only [operandStroke, hy, htext, Option.map_some] at hr
    exact (Option.some.inj hr).symm
  | stringLit | true | false | lBracket | lCurly | lParen | bang | minus =>
    cases h
    exact .same_of_eq hgap ⟨rfl, rfl⟩ nofun rfl
  | _ => cases h

theorem elementStroke_retraced {last : Item} (hsub : ∀ name ∈ c.declared, fn' name → fn name)
    (hdeclared : ∀ name ∈ c.declared, fn name → fn' name)
    (h : elementStroke fn c kind literal last = some r) :
    Retraced (fun k l _ => elementStroke fn' c k l last)
        (fun b k => last = .element → b = false → endsList k) r ∨
      last.nextLine? = none ∧ r = ([], c.goTo (.element last)) := by
  have hlead {k : TokenKind} (level : Nat) (hlast : last = .element)
      (hb : (!(last.lead level).isEmpty) = false) : endsList k := by
    subst hlast
    cases hb
  have hnewline {next : Item} (hnext : last.nextLine? = some next)
      (h : ∀ l, elementStroke fn' c .nl l last = some ([newline], c.goTo (.element next))) :
      Retraced (fun k l _ => elementStroke fn' c k l last)
        (fun b k => last = .element → b = false → endsList k) ([newline], c.goTo (.element next)) :=
    .tight (fun _ _ => rfl) (by simp) fun r hr => Option.some.inj (hr.symm.trans (h ""))
  unfold elementStroke at h
  split at h
  · next level fs hframes =>
    split at h
    · split at h
      · next next hnext =>
        cases h
        refine .inl (hnewline hnext fun l => ?_)
        simp only [elementStroke, hframes, hnext]
      · next hnone =>
        cases h
        exact .inr ⟨hnone, rfl⟩
    · cases h
      refine .inl (.same (last.isGap_commentLead level) (fun _ _ => rfl) (by simp) fun r hr => ?_)
      simp only [elementStroke, hframes, Text.trim_trim] at hr
      exact (Option.some.inj hr).symm
    · cases h
      refine .inl (.same (last.isGap_back level) (fun _ _ => rfl) (by simp) fun r hr => ?_)
      simp only [elementStroke, hframes] at hr
      exact (Option.some.inj hr).symm
    · refine .inl ((operandStroke_retraced (last.isGap_lead level) hsub hdeclared h).mono
        (fun b k hk hlast hb => hlead level hlast (hk.1 ▸ hb)) fun k b hk l s hs => ?_)
      have hk : startsOperand k ∨ k = .plus := hk.imp And.right And.left
      simp only [elementStroke, hframes] at hs
      split at hs
      · simp [startsOperand] at hk
      · simp [startsOperand] at hk
      · simp [startsOperand] at hk
      · exact hs
  · next level fs hframes =>
    split at h
    · split at h
      · next next hnext =>
        cases h
        refine .inl (hnewline hnext fun l => ?_)
        simp only [elementStroke, hframes, hnext]
      · next hnone =>
        cases h
        exact .inr ⟨hnone, rfl⟩
    · cases h
      refine .inl (.same (last.isGap_commentLead level) (fun _ _ => rfl) (by simp) fun r hr => ?_)
      simp only [elementStroke, hframes, Text.trim_trim] at hr
      exact (Option.some.inj hr).symm
    · cases h
      refine .inl (.same (last.isGap_back level) (fun _ _ => rfl) (by simp) fun r hr => ?_)
      simp only [elementStroke, hframes] at hr
      exact (Option.some.inj hr).symm
    · cases h
      refine .inl (.same (last.isGap_lead level) (hlead level) (by simp) fun r hr => ?_)
      simp only [elementStroke, hframes] at hr
      exact (Option.some.inj hr).symm
    · cases h
  · cases h

theorem betweenStroke_retraced (hsub : ∀ name ∈ c.declared, fn' name → fn name)
    (hdeclared : ∀ name ∈ c.declared, fn name → fn' name) (h : betweenStroke fn c kind literal = some r) :
    Retraced (fun k l _ => betweenStroke fn' c k l) (fun b k => b = false → endsList k) r := by
  unfold betweenStroke at h
  split at h
  · next fs hframes =>
    split at h
    · next s hs =>
      cases h
      refine (operandStroke_retraced isGap_space hsub hdeclared hs).mono
        (fun b k hk hb => by rw [hb] at hk; cases hk.1) fun k b hk l s hs => ?_
      simp only [betweenStroke, hframes] at hs
      split at hs
      · next h' => exact h'.trans hs
      · rw [closingStroke_eq_none (closesOperand_of_startsOperand (hk.imp And.right And.left))] at hs
        cases hs
    · refine (closingStroke_retraced h).mono (fun b k hk _ => by rw [endsList, hk, Bool.true_or])
        fun k b hk l s hs => ?_
      have hnone := startsOperand_of_closesOperand (hk.imp id And.left)
      simp only [betweenStroke, hframes, operandStroke_eq_none hnone] at hs
      rw [hframes]
      exact hs
  · next hne =>
    rcases elementStroke_retraced hsub hdeclared h with h | ⟨h, -⟩
    · refine h.mono (fun b k hk => hk rfl) fun k b hk l s hs => ?_
      unfold betweenStroke at hs
      split at hs
      · next fs hframes => exact absurd hframes (hne fs)
      · exact hs
    · cases h

theorem operatorStroke_retraced {blank : Bool} (hsub : ∀ name ∈ c.declared, fn' name → fn name)
    (hdeclared : ∀ name ∈ c.declared, fn name → fn' name) (h : operatorStroke fn c kind literal blank = some r) :
    Retraced (fun k l b => operatorStroke fn' c k l b) Anything r := by
  -- between expressions a token without a blank is none that goes on with the one before
  have hbetween (hspaced : Scribe.spaced c.frames) (h : betweenStroke fn c kind literal = some r) :
      Retraced (fun k l b => operatorStroke fn' c k l b) Anything r := by
    refine (betweenStroke_retraced hsub hdeclared h).mono (fun _ _ _ => trivial) fun k b hk l s hs => ?_
    simp only [operatorStroke, hspaced, Bool.true_and, if_true] at hs
    cases b with
    | true => exact hs
    | false =>
      rcases hk with hk | ⟨-, hk⟩
      · have hk := hk rfl
        have hop : (BinaryOp.ofToken? k).isSome = false := by cases k <;> first | rfl | cases hk
        have hindex : k ≠ .lBracket := by rintro rfl; cases hk
        have hdot : k ≠ .dot := by rintro rfl; cases hk
        simpa [hop, hindex, hdot] using hs
      · cases hk rfl
  unfold operatorStroke at h
  dsimp only at h
  split at h
  · next hspaced =>
    exact hbetween (Bool.and_eq_true_iff.1 hspaced).1 h
  split at h
  · next hop =>
    cases h
    refine .same (by split; exacts [isGap_nil, isGap_space]) trivial (by rintro rfl; cases hop) fun r hr => ?_
    cases hspaced : Scribe.spaced c.frames <;> simp [operatorStroke, hspaced, hop] at hr <;>
      exact hr.symm
  next hop =>
  split at h
  · next hk =>
    cases h
    obtain ⟨rfl, -⟩ : kind = .lBracket ∧ blank = false := by simpa using hk
    refine .tight trivial (by simp) fun r hr => ?_
    simp only [operatorStroke, Bool.and_false, Bool.false_eq_true, if_false] at hr
    exact (Option.some.inj hr).symm
  split at h
  · next hk =>
    cases h
    obtain ⟨rfl, -⟩ : kind = .dot ∧ blank = false := by simpa using hk
    refine .tight trivial (by simp) fun r hr => ?_
    simp only [operatorStroke, Bool.and_false, Bool.false_eq_true, if_false] at hr
    exact (Option.some.inj hr).symm
  split at h
  · next hspaced => exact hbetween hspaced h
  · next hspaced =>
    refine (closingStroke_retraced h).mono (fun _ _ _ => trivial) fun k b hk l s hs => ?_
    have hk : closesOperand k := hk.elim id fun h => by cases h.2
    have hop : (BinaryOp.ofToken? k).isSome = false := by cases k <;> first | rfl | cases hk
    have hindex : k ≠ .lBracket := by rintro rfl; cases hk
    have hdot : k ≠ .dot := by rintro rfl; cases hk
    simpa [operatorStroke, hspaced, hop, hindex, hdot] using hs

theorem startStroke_retraced (h : startStroke c kind literal = some r) :
    Retraced (fun k l _ => startStroke c k l) Anything r := by
  cases kind with
  | comment =>
    cases h
    refine .same (isGap_indent c.level) trivial nofun fun r hr => ?_
    simp only [startStroke, Text.trim_trim] at hr
    exact (Option.some.inj hr).symm
  | nl =>
    cases h
    exact .tight_of_eq trivial nofun rfl
  | «else» | «end» =>
    cases h
    exact .same_of_eq (isGap_indent (c.level - 1)) trivial nofun rfl
  | ident | «return» | «break» | «if» | «while» | «for» | func | on =>
    cases h
    exact .same_of_eq (isGap_indent c.level) trivial nofun rfl
  | _ => cases h

theorem paramsStroke_retraced (h : paramsStroke c kind literal = some r) :
    Retraced (fun k l _ => paramsStroke c k l) (fun _ k => k ≠ .colon) r := by
  cases kind with
  | ident =>
    cases h
    exact .apart_of_eq nofun nofun rfl
  | dot3 =>
    cases h
    exact .tight_of_eq nofun nofun rfl
  | nl | eof =>
    cases h
    exact .tight_of_eq nofun nofun rfl
  | comment =>
    cases h
    refine .apart nofun nofun fun r hr => ?_
    simp only [paramsStroke, finishStroke, Text.trim_trim] at hr
    exact (Option.some.inj hr).symm
  | _ => cases h

theorem rangeStroke_retraced (h : rangeStroke c kind = some r) :
    Retraced (fun k _ _ => rangeStroke c k) (fun _ k => k ≠ .ident) r := by
  unfold rangeStroke at h
  split at h
  · next hk =>
    subst hk
    cases h
    exact .apart_of_eq nofun nofun rfl
  · cases h

theorem endedStroke_retraced (h : endedStroke c kind literal = some r) :
    Retraced (fun k l _ => endedStroke c k l) Anything r ∨ r = ([], c.goTo .rest) := by
  have hfinish (h : finishStroke c kind literal = some r) :
      Retraced (fun k l _ => endedStroke c k l) Anything r := by
    refine (finishStroke_retraced h).mono (fun _ _ _ => trivial) fun k b hk l s hs => ?_
    cases k with
    | nl | eof | comment => exact hs
    | _ => simp [endsLine] at hk
  unfold endedStroke at h
  split at h
  iterate 3 exact .inl (hfinish h)
  exact .inr (Option.some.inj h).symm

/-- After a name that starts a line a function is called, or a variable changed or declared. -/
theorem namedStroke_retraced {name : String} {blank : Bool} (hsub : ∀ name ∈ c.declared, fn' name → fn name)
    (hdeclared : ∀ name ∈ c.declared, fn name → fn' name) (h : namedStroke fn c kind literal name blank = some r) :
    Retraced (fun k l b => namedStroke fn' c k l name b) Anything r := by
  unfold namedStroke at h
  split at h
  · split at h
    · next hvar =>
      cases h
      refine .apart trivial (by simp) fun r hr => ?_
      simp only [namedStroke, hvar, if_true] at hr
      exact (Option.some.inj hr).symm
    · cases h
  · split at h
    · next hvar =>
      cases h
      refine .tight trivial (by simp) fun r hr => ?_
      simp only [namedStroke, (Bool.and_eq_true_iff.1 hvar).1, Bool.not_false, Bool.and_self, if_true] at hr
      exact (Option.some.inj hr).symm
    · cases h
  · cases h
    exact .tight_of_eq trivial (by simp) rfl
  · cases h
    exact .apart_of_eq trivial (by simp) rfl
  next hassign _ _ _ =>
  split at h
  · next hfunc =>
    -- a variable with the name of a function is not assigned to here
    have hcall {k : TokenKind} {l : String} {b : Bool} {s : List Word × Scribe}
      (hk : startsOperand k ∨ k = .plus ∨ endsLine k)
        (hs : namedStroke fn' c k l name b = some s) :
        betweenStroke fn' { c with frames := [.args] } k l = some s := by
      unfold namedStroke at hs
      split at hs
      · simp [startsOperand, endsLine] at hk
      · simp [startsOperand, endsLine] at hk
      · simp [startsOperand, endsLine] at hk
      · simp [startsOperand, endsLine] at hk
      · split at hs
        · exact hs
        · next hfunc' =>
          split at hs
          · next hvar =>
            simp only [Bool.and_eq_true, List.contains_iff_mem] at hvar
            exact absurd (hdeclared name hvar.1.2 hfunc) hfunc'
          · cases hs
    unfold betweenStroke at h
    dsimp only at h
    split at h
    · next s hs =>
      cases h
      refine (operandStroke_retraced isGap_space (by exact hsub) (by exact hdeclared) hs).mono (fun _ _ _ => trivial)
        fun k b hk l s hs => ?_
      have hk := hk.imp And.right And.left
      have hs := hcall (hk.imp id .inl) hs
      simp only [betweenStroke] at hs
      split at hs
      · next h' => exact h'.trans hs
      · rw [closingStroke_eq_none (closesOperand_of_startsOperand hk)] at hs
        cases hs
    · rw [closingStroke, closingStroke, if_neg hassign] at h
      refine (finishStroke_retraced h).mono (fun _ _ _ => trivial) fun k b hk l s hs => ?_
      have hk : endsLine k := hk.elim id fun h => by cases h.2
      have hs := hcall (.inr (.inr hk)) hs
      have hnone : startsOperand k = false := by cases k <;> first | rfl | cases hk
      have hassign : k ≠ .assign := by rintro rfl; cases hk
      simp only [betweenStroke, operandStroke_eq_none hnone] at hs
      rwa [closingStroke, closingStroke, if_neg hassign] at hs
  · next hfunc =>
    split at h
    · next hk =>
      cases h
      simp only [Bool.and_eq_true, decide_eq_true_eq] at hk
      obtain ⟨⟨rfl, hvar⟩, -⟩ := hk
      have hfunc' : ¬ fn' name = true := fun hf => hfunc (hsub name (List.contains_iff_mem.1 hvar) hf)
      refine .tight trivial (by simp) fun r hr => ?_
      simp only [namedStroke, hvar] at hr
      rw [if_neg hfunc'] at hr
      exact (Option.some.inj hr).symm
    · cases h

end

/-! ### Strokes -/

/-- What a scribe that copies the copy knows: where one leaves out the rest of a line, the other has come
to its end. -/
inductive Retraces : Scribe → Scribe → Prop
  | same (c : Scribe) : Retraces c c
  | ended {c : Scribe} (h : c.place = .rest) : Retraces c (c.goTo .ended)

section
variable {fn fn' : String → Bool} {c c' : Scribe} {kind : TokenKind} {literal : String} {blank : Bool}
  {r : List Word × Scribe}

theorem stroke_operand_retraced {first : Bool} {lead : Lead} (hplace : c.place = .operand first lead)
    (hsub : ∀ name ∈ c.declared, fn' name → fn name) (hdeclared : ∀ name ∈ c.declared, fn name → fn' name)
    (h : stroke fn c kind literal blank = some r) :
    Retraced (fun k l b => stroke fn' c k l b) Anything r := by
  have hagain {k : TokenKind} {l : String} {b : Bool} {s : List Word × Scribe}
      (hs : stroke fn' c k l b = some s) :
      operandStroke fn' c k l first lead.words = some s ∨ closingStroke c k l c.frames = some s := by
    simp only [stroke, hplace] at hs
    split at hs
    · cases hs
    · split at hs
      · next hs' => exact .inl (hs'.trans hs)
      · exact .inr hs
  simp only [stroke, hplace] at h
  split at h
  · cases h
  split at h
  · next s hs =>
    cases h
    refine (operandStroke_retraced (isGap_leadWords lead) hsub hdeclared hs).mono (fun _ _ _ => trivial)
      fun k b hk l s hs => ?_
    have hk : startsOperand k ∨ k = .plus := hk.imp And.right And.left
    rcases hagain hs with hs | hs
    · exact hs
    · rw [closingStroke_eq_none (closesOperand_of_startsOperand hk)] at hs
      cases hs
  · refine (closingStroke_retraced h).mono (fun _ _ _ => trivial) fun k b hk l s hs => ?_
    rcases hagain hs with hs | hs
    · rw [operandStroke_eq_none (startsOperand_of_closesOperand (hk.imp id And.left))] at hs
      cases hs
    · exact hs

/-- What is written for a token is copied as it is, or nothing is written for it. -/
theorem stroke_retraced (hc : Retraces c c') (hsub : ∀ name ∈ c.declared, fn' name → fn name)
    (hdeclared : ∀ name ∈ c.declared, fn name → fn' name)
    (h : stroke fn c kind literal blank = some r) :
    Retraced (fun k l b => stroke fn' c' k l b) Anything r ∨ r.1 = [] ∧ Retraces r.2 c' := by
  cases hc with
  | ended hplace =>
    simp only [stroke, hplace] at h
    split at h
    · cases h
      exact .inl (.tight_of_eq trivial (by simp) rfl)
    · cases h
      exact .inr ⟨rfl, .ended hplace⟩
  | same =>
    cases hplace : c.place
    case operand first lead => exact .inl (stroke_operand_retraced hplace hsub hdeclared h)
    all_goals simp only [stroke, hplace] at h ⊢
    case start => exact .inl (startStroke_retraced h)
    case named name => exact .inl (namedStroke_retraced hsub hdeclared h)
    case operator => exact .inl (operatorStroke_retraced hsub hdeclared h)
    case argument =>
      exact .inl ((betweenStroke_retraced hsub hdeclared h).mono (fun _ _ _ => trivial) fun _ _ _ _ _ hs => hs)
    case dot =>
      split at h
      all_goals cases h
      all_goals exact .inl (.tight_of_eq trivial (by simp) rfl)
    case element last =>
      rcases elementStroke_retraced hsub hdeclared h with h | ⟨-, rfl⟩
      · exact .inl (h.mono (fun _ _ _ => trivial) fun _ _ _ _ _ hs => hs)
      · refine .inr ⟨rfl, ?_⟩
        have hc : c.goTo (.element last) = c := by rw [← hplace]; rfl
        rw [hc]
        exact .same c
    case type site =>
      split at h
      all_goals cases h
      all_goals exact .inl (.tight_of_eq trivial (by simp) rfl)
    case typeEnd site map =>
      generalize hclose : (if map then TokenKind.rCurly else TokenKind.rBracket) = close at h ⊢
      have hnum : close ≠ .numLit := by cases map <;> subst hclose <;> simp
      obtain ⟨rfl, hr⟩ := Option.ite_none_right_eq_some.1 h
      cases hr
      exact .inl (.tight_of_eq trivial hnum (if_pos rfl))
    case elementEnd | pairColon | assertionEnd =>
      obtain ⟨rfl, hr⟩ := Option.ite_none_right_eq_some.1 h
      cases hr
      exact .inl (.tight_of_eq trivial (by simp) rfl)
    case closed =>
      cases (Option.ite_none_right_eq_some.1 h).2
      exact .inl (.tight_of_eq trivial (by simp) rfl)
    case loopDeclare =>
      obtain ⟨rfl, hr⟩ := Option.ite_none_right_eq_some.1 h
      cases hr
      exact .inl (.apart_of_eq trivial (by simp) rfl)
    case paramColon =>
      cases h
      exact .inl (.tight_of_eq trivial (by simp) rfl)
    case funcName =>
      cases (Option.ite_none_right_eq_some.1 h).2
      refine .inl (.apart trivial (by simp) fun r hr => ?_)
      exact (Option.some.inj (Option.ite_none_right_eq_some.1 hr).2).symm
    case handlerName =>
      cases (Option.ite_none_right_eq_some.1 h).2
      exact .inl (.apart_of_eq trivial (by simp) rfl)
    case finish => exact .inl ((finishStroke_retraced h).mono (fun _ _ _ => trivial) fun _ _ _ _ _ hs => hs)
    case ended =>
      rcases endedStroke_retraced h with hretraced | rfl
      · exact .inl hretraced
      · refine .inr ⟨rfl, ?_⟩
        have hc : (c.goTo .rest).goTo .ended = c := by rw [← hplace]; rfl
        simpa only [hc] using Retraces.ended (c := c.goTo .rest) rfl
    case rest =>
      split at h
      · cases h
        exact .inl (.tight_of_eq trivial (by simp) rfl)
      · cases h
        exact .inr ⟨rfl, .same c⟩
    case result =>
      split at h
      · next hk =>
        subst hk
        cases h
        exact .inl (.tight_of_eq trivial (by simp) rfl)
      · refine .inl ((paramsStroke_retraced h).mono (fun _ _ _ => trivial) fun k b hk l s hs => ?_)
        have hk : k ≠ .colon := hk.elim id fun h => by simp [h.1]
        rwa [if_neg hk] at hs
    case params =>
      exact .inl ((paramsStroke_retraced h).mono (fun _ _ _ => trivial) fun _ _ _ _ _ hs => hs)
    case loopRange =>
      exact .inl ((rangeStroke_retraced h).mono (fun _ _ _ => trivial) fun _ _ _ _ _ hs => hs)
    case loopVar =>
      split at h
      · cases h
        exact .inl (.apart_of_eq trivial (by simp) (if_pos rfl))
      · refine .inl ((rangeStroke_retraced h).mono (fun _ _ _ => trivial) fun k b hk l s hs => ?_)
        have hk : k ≠ .ident := hk.elim id fun h => by simp [h.1]
        rwa [if_neg hk] at hs
    case otherwise =>
      split at h
      · next hk =>
        subst hk
        cases h
        exact .inl (.apart_of_eq trivial (by simp) rfl)
      · refine .inl ((finishStroke_retraced h).mono (fun _ _ _ => trivial) fun k b hk l s hs => ?_)
        have hk : k ≠ .if := by
          rintro rfl
          simp [endsLine] at hk
        rwa [if_neg hk] at hs

end

end TinyScript.Layout
