import Mathlib.Data.List.Chain
import TinyScript.Proofs.Token.Rescanning

/-!
# Tokens next to each other

A token goes on as far as it can, so what comes next starts with a character that is no part of it. Tokens
that are written so are scanned again.
-/

namespace TinyScript

namespace TokenKind

/-- Whether tokens of the kind are identifiers or keywords. -/
def isWord : TokenKind → Bool
  | .ident | .num | .string | .bool | .any | .true | .false | .and | .or | .if | .else | .func | .return | .on
  | .for | .range | .while | .break | .end => Bool.true
  | _ => Bool.false

/-- Whether tokens of the kind are always written with the same signs. -/
def isSign : TokenKind → Bool
  | .declare | .assign | .plus | .minus | .bang | .asterisk | .slash | .percent | .eq | .notEq | .lt | .gt | .ltEq
  | .gtEq | .lParen | .rParen | .lBracket | .rBracket | .lCurly | .rCurly | .colon | .nl | .dot | .dot3 => Bool.true
  | _ => Bool.false

/-- Whether a token of the kind may start with a character. -/
def opens (kind : TokenKind) (c : Char) : Bool :=
  match kind with
  | .ws => c == ' ' || c == '\t'
  | .ident => Text.isIdentStart c
  | .numLit => c.isDigit
  | .comment => c == '/'
  | .stringLit => c == '"'
  | k => k.surface.toList.head? == some c

/-- Whether a token of the kind ends before a character. -/
def endsBefore (kind : TokenKind) (d : Char) : Bool :=
  match kind with
  | .ws => !Lexeme.isSpacing d
  | .comment => d == '\n'
  | .numLit => !(d.isDigit || d == '.')
  | .assign | .bang | .lt | .gt | .colon => d != '='
  | .slash => d != '/'
  | .dot => d != '.'
  | k => !(k.isWord && Text.isIdentContinue d)

/-- Whether a token of the kind may go on with the start of one of the next kind. -/
def runsInto (kind next : TokenKind) : Bool :=
  match kind with
  | .ws => next == .ws
  | .comment => next != .nl
  | .numLit => next == .numLit || next == .dot || next == .dot3
  | .assign | .bang | .lt | .gt | .colon => next == .assign || next == .eq
  | .slash => next == .slash || next == .comment
  | .dot => next == .dot || next == .dot3
  | k => k.isWord && (next.isWord || next == .numLit)

section
variable {kind next : TokenKind} {c d : Char}

theorem isIdentStart_of_opens (h : next.opens d) (hword : next.isWord) : Text.isIdentStart d := by
  cases next
  case ident => exact h
  all_goals first | (cases hword; done) | (rw [← Option.some.inj (beq_iff_eq.1 h)]; decide)

theorem toNat_of_isDigit (h : d.isDigit) : 48 ≤ d.toNat ∧ d.toNat ≤ 57 := by
  simpa [Char.isDigit, Char.le_def, UInt32.le_iff_toNat_le] using h

theorem isDigit_eq_false_of_isIdentStart (h : Text.isIdentStart d) : d.isDigit = Bool.false := by
  refine Bool.eq_false_iff.2 fun hdigit => ?_
  obtain ⟨hlow, hhigh⟩ := toNat_of_isDigit hdigit
  have hne : d ≠ '_' := by
    rintro rfl
    cases hdigit
  have halpha : d.isAlpha = Bool.false := by
    refine Bool.eq_false_iff.2 fun halpha => ?_
    rcases Bool.or_eq_true_iff.1 halpha with hupper | hlower
    · have hlow : 65 ≤ d.toNat := UInt32.le_iff_toNat_le.1 (of_decide_eq_true hupper).1
      omega
    · have hlow : 97 ≤ d.toNat := UInt32.le_iff_toNat_le.1 (of_decide_eq_true (Bool.and_eq_true_iff.1 hlower).1)
      omega
  rw [Text.isIdentStart_ascii (by omega), halpha] at h
  simp [hne] at h

theorem isIdentContinue_of_isDigit (h : d.isDigit) : Text.isIdentContinue d := by
  have hlow := toNat_of_isDigit h
  rw [Text.isIdentContinue_ascii (by omega), Char.isAlphanum, h, Bool.or_true, Bool.true_or, Bool.or_true]

theorem opens_digit (h : next.opens d) (hnum : next ≠ .numLit) : d.isDigit = Bool.false := by
  cases next
  case ident => exact isDigit_eq_false_of_isIdentStart h
  case numLit => exact absurd rfl hnum
  case ws =>
    rcases Bool.or_eq_true_iff.1 h with h | h <;> rw [beq_iff_eq.1 h] <;> decide
  case comment | stringLit => rw [beq_iff_eq.1 h]; decide
  all_goals first | (cases beq_iff_eq.1 h; done) | (rw [← Option.some.inj (beq_iff_eq.1 h)]; decide)

theorem opens_isIdentContinue (h : next.opens d) (hword : next.isWord = Bool.false) (hnum : next ≠ .numLit)
    (hlegal : next ≠ .illegal) : Text.isIdentContinue d = Bool.false := by
  cases next
  case numLit => exact absurd rfl hnum
  case illegal => exact absurd rfl hlegal
  case ws =>
    rcases Bool.or_eq_true_iff.1 h with h | h <;> rw [beq_iff_eq.1 h] <;> decide
  case comment | stringLit => rw [beq_iff_eq.1 h]; decide
  all_goals first
  | (cases hword; done)
  | (cases beq_iff_eq.1 h; done)
  | (rw [← Option.some.inj (beq_iff_eq.1 h)]; decide)

theorem endsBefore_of_isWord (h : kind.isWord) : kind.endsBefore d = !Text.isIdentContinue d := by
  cases kind <;> first | (cases h; done) | rfl

theorem runsInto_of_isWord (h : kind.isWord) : kind.runsInto next = (next.isWord || next == .numLit) := by
  cases kind <;> first | (cases h; done) | rfl

/-- Tokens that do not run into each other can stand next to each other. -/
theorem endsBefore_of_opens (h : kind.runsInto next = Bool.false) (hlegal : next ≠ .illegal) (hd : next.opens d) :
    kind.endsBefore d := by
  have hequals (h : (next == .assign || next == .eq) = Bool.false) : d != '=' := by
    refine bne_iff_ne.2 ?_
    rintro rfl
    cases next <;> first | (cases h; done) | exact absurd hd (by decide)
  cases kind
  case assign | bang | lt | gt | colon => exact hequals h
  case slash =>
    refine bne_iff_ne.2 ?_
    rintro rfl
    cases next <;> first | (cases h; done) | exact absurd hd (by decide)
  case dot =>
    refine bne_iff_ne.2 ?_
    rintro rfl
    cases next <;> first | (cases h; done) | exact absurd hd (by decide)
  case ws =>
    have hnext : next ≠ .ws := beq_eq_false_iff_ne.1 h
    have hne {e : Char} (he : next.opens e = Bool.false) : d ≠ e := by
      rintro rfl
      rw [he] at hd
      cases hd
    have hspace : next.opens ' ' = Bool.false ∧ next.opens '\t' = Bool.false ∧ next.opens '\r' = Bool.false := by
      cases next <;> first | exact absurd rfl hnext | decide
    simp [endsBefore, Lexeme.isSpacing, hne hspace.1, hne hspace.2.1, hne hspace.2.2]
  case comment =>
    obtain rfl : next = .nl := by simpa [runsInto] using h
    exact beq_iff_eq.2 (Option.some.inj (beq_iff_eq.1 hd)).symm
  case numLit =>
    simp only [runsInto, Bool.or_eq_false_iff, beq_eq_false_iff_ne] at h
    have hdot : d ≠ '.' := by
      rintro rfl
      cases next <;> first | exact absurd rfl h.1.2 | exact absurd rfl h.2 | exact absurd hd (by decide)
    simp [endsBefore, opens_digit hd h.1.1, hdot]
  all_goals
    first
    | rfl
    | rw [runsInto_of_isWord rfl, Bool.or_eq_false_iff, beq_eq_false_iff_ne] at h
      rw [endsBefore_of_isWord rfl, opens_isIdentContinue hd h.1 h.2 hlegal]
      rfl

end

/-- Whether a token of the kind can have the literal. Blanks and what stands for no token are left aside. -/
def Spells (kind : TokenKind) (literal : String) : Prop :=
  match kind with
  | .ident => Text.isIdent literal.toList ∧ ofKeyword? literal = none
  | .numLit => ∃ c cs, literal.toList = c :: cs ∧ c.isDigit ∧ ∀ d ∈ cs, d.isDigit || d == '.'
  | .comment => ∃ cs, literal.toList = '/' :: '/' :: cs ∧ '\n' ∉ cs
  | .stringLit => True
  | .illegal | .eof | .ws => False
  | _ => literal = ""

section
variable {kind : TokenKind} {literal : String} {c d : Char}

/-- Whether tokens of the kind are written in one way only. -/
def isFixed (kind : TokenKind) : Bool :=
  kind.isSign || (kind.isWord && kind != .ident)

theorem opens_of_isFixed (h : kind.isFixed) : kind.opens c = (kind.surface.toList.head? == some c) := by
  cases kind <;> first | (cases h; done) | rfl

theorem spells_iff_of_isFixed (h : kind.isFixed) : kind.Spells literal ↔ literal = "" := by
  cases kind <;> first | (cases h; done) | exact Iff.rfl

end

end TokenKind

namespace Lexeme

variable {c d : Char} {kind : TokenKind} {literal : String} {more rest cs : List Char} {l : Lexeme}

/-! ### Tokens of a source -/

/-- The lexemes that start with a character. -/
inductive Scanned (c : Char) (cs : List Char) : Lexeme → Prop where
  | word (hc : Text.isIdentStart c) : Scanned c cs (ofWord c cs)
  | number (hc : c.isDigit) : Scanned c cs (run .numLit c cs fun d => d.isDigit || d == '.')
  | blank (hc : c = ' ' ∨ c = '\t') : Scanned c cs ⟨.ws, "", (cs.takeWhile isSpacing).length⟩
  | comment (hc : c = '/') (hcs : cs.head? = some '/') : Scanned c cs (run .comment c cs (· != '\n'))
  | string (hc : c = '"') : Scanned c cs (ofString cs)
  | sign {kind : TokenKind} {extra : Nat} (hkind : kind.isSign) (hc : kind.surface.toList.head? = some c) :
    Scanned c cs ⟨kind, "", extra⟩
  | illegal {literal : String} {extra : Nat} : Scanned c cs ⟨.illegal, literal, extra⟩

theorem either_scanned {second : Char} {long short : TokenKind} (hlong : long.isSign) (hshort : short.isSign)
    (hlongc : long.surface.toList.head? = some c) (hshortc : short.surface.toList.head? = some c) :
    Scanned c cs (either cs second long short) := by
  unfold either
  split
  · exact .sign hlong hlongc
  · exact .sign hshort hshortc

theorem next_scanned (c : Char) (cs : List Char) : Scanned c cs (next c cs) := by
  unfold next
  split
  case h_1 => exact .blank (.inl rfl)
  case h_2 => exact .blank (.inr rfl)
  case h_3 | h_6 | h_10 | h_11 | h_12 => exact either_scanned rfl rfl rfl rfl
  case h_7 =>
    split
    · next h => exact .comment rfl h
    · exact .sign rfl rfl
  case h_20 => split <;> exact .sign rfl rfl
  case h_21 => exact .string rfl
  case h_22 =>
    split
    · next h => exact .word h
    · split
      · next h => exact .number h
      · exact .illegal
  all_goals exact .sign rfl rfl

theorem ofString_kind_cases (cs : List Char) : (ofString cs).kind = .stringLit ∨ (ofString cs).kind = .illegal := by
  unfold ofString
  dsimp only
  split
  · split
    · exact .inl rfl
    · exact .inr rfl
  · exact .inr rfl

/-- A word is a keyword or an identifier. -/
theorem ofWord_cases (c : Char) (cs : List Char) :
    (∃ k : TokenKind, k.isWord ∧ k.isFixed ∧ k.surface.toList.head? = some c ∧
      ofWord c cs = ⟨k, "", (cs.takeWhile Text.isIdentContinue).length⟩) ∨
    (TokenKind.ofKeyword? (run .ident c cs Text.isIdentContinue).literal = none ∧
      ofWord c cs = run .ident c cs Text.isIdentContinue) := by
  unfold ofWord
  dsimp only
  split
  · next k hk =>
    have hword : k.isWord ∧ k.isFixed := by
      unfold TokenKind.ofKeyword? at hk
      split at hk <;> cases hk <;> exact ⟨rfl, rfl⟩
    refine .inl ⟨k, hword.1, hword.2, ?_, rfl⟩
    rw [(TokenKind.surface_of_ofKeyword? hk).1]
    simp [run]
  · next hk => exact .inr ⟨hk, rfl⟩

/-- A lexeme starts with a character that its kind may start with. -/
theorem Scanned.opens (h : Scanned c cs l) (hlegal : l.kind ≠ .illegal) : l.kind.opens c := by
  cases h with
  | word hc =>
    rcases ofWord_cases c cs with ⟨k, -, hfixed, hhead, hword⟩ | ⟨-, hword⟩
    · rw [hword]
      exact (TokenKind.opens_of_isFixed hfixed).trans (beq_iff_eq.2 hhead)
    · rw [hword]
      exact hc
  | number hc => exact hc
  | blank hc =>
    rcases hc with rfl | rfl <;> rfl
  | comment hc => exact beq_iff_eq.2 hc
  | string hc =>
    rw [(ofString_kind_cases cs).resolve_right hlegal]
    exact beq_iff_eq.2 hc
  | @sign kind _ hkind hc =>
    have hfixed : kind.isFixed := by rw [TokenKind.isFixed, hkind, Bool.true_or]
    exact (TokenKind.opens_of_isFixed hfixed).trans (beq_iff_eq.2 hc)
  | illegal => exact absurd rfl hlegal

theorem Scanned.spells (h : Scanned c cs l) (hlegal : l.kind ≠ .illegal) (hws : l.kind ≠ .ws) :
    l.kind.Spells l.literal := by
  cases h with
  | word hc =>
    rcases ofWord_cases c cs with ⟨k, -, hfixed, -, hword⟩ | ⟨hnone, hword⟩
    · rw [hword]
      exact (TokenKind.spells_iff_of_isFixed hfixed).2 rfl
    · rw [hword]
      refine ⟨?_, hnone⟩
      simp only [run, String.toList_ofList, Text.isIdent, hc, Bool.true_and]
      exact List.all_takeWhile
  | number hc =>
    exact ⟨c, _, String.toList_ofList, hc, fun d hd => List.mem_takeWhile_imp (p := fun d => d.isDigit || d == '.') hd⟩
  | blank => exact absurd rfl hws
  | comment hc hcs =>
    obtain ⟨cs, rfl⟩ : ∃ cs', cs = '/' :: cs' := by
      cases cs with
      | nil => cases hcs
      | cons d cs => exact ⟨cs, by rw [Option.some.inj hcs]⟩
    subst hc
    refine ⟨cs.takeWhile (· != '\n'), ?_, fun hmem => by simpa using List.mem_takeWhile_imp hmem⟩
    simp [run]
  | string hc =>
    rw [(ofString_kind_cases cs).resolve_right hlegal]
    trivial
  | @sign kind _ hkind hc =>
    exact (TokenKind.spells_iff_of_isFixed (by rw [TokenKind.isFixed, hkind, Bool.true_or])).2 rfl
  | illegal => exact absurd rfl hlegal

theorem not_of_takeWhile {p : Char → Bool} (h : ((more ++ rest).takeWhile p).length = more.length)
    (hd : rest.head? = some d) : p d = false :=
  Bool.eq_false_iff.2 ((takeWhile_append_eq_iff.1 (takeWhile_eq_of_length h)).2 d hd)

/-- A lexeme that is no sign ends before the rest. -/
theorem Scanned.endsBefore (h : Scanned c (more ++ rest) l) (hextra : l.extra = more.length)
    (hsign : l.kind.isSign = false) (hlegal : l.kind ≠ .illegal) (hd : rest.head? = some d) : l.kind.endsBefore d := by
  cases h with
  | word hc =>
    have hstops (h : ((more ++ rest).takeWhile Text.isIdentContinue).length = more.length) {k : TokenKind}
      (hk : k.isWord) :
        k.endsBefore d := by
      rw [TokenKind.endsBefore_of_isWord hk, not_of_takeWhile h hd]
      rfl
    rcases ofWord_cases c (more ++ rest) with ⟨k, hk, -, -, hword⟩ | ⟨-, hword⟩ <;> rw [hword] at hextra ⊢
    · exact hstops hextra hk
    · exact hstops hextra rfl
  | number hc =>
    have hstops := not_of_takeWhile hextra hd
    show (!(d.isDigit || d == '.')) = true
    rw [hstops]
    rfl
  | blank hc =>
    have hstops := not_of_takeWhile hextra hd
    show (!isSpacing d) = true
    rw [hstops]
    rfl
  | comment hc hcs =>
    have hstops := not_of_takeWhile hextra hd
    exact beq_iff_eq.2 (by simpa using hstops)
  | string hc =>
    rw [(ofString_kind_cases _).resolve_right hlegal]
    rfl
  | sign hkind => rw [hkind] at hsign; cases hsign
  | illegal => exact absurd rfl hlegal

/-! ### Tokens that are written -/

theorem takeWhile_of_stops {p : Char → Bool} (hmore : ∀ d ∈ more, p d)
    (hrest : ∀ d, rest.head? = some d → p d = false) :
    (more ++ rest).takeWhile p = more :=
  takeWhile_append_eq_iff.2 ⟨hmore, fun d hd => Bool.eq_false_iff.1 (hrest d hd)⟩

theorem next_word (hc : Text.isIdentStart c) (hmore : ∀ d ∈ more, Text.isIdentContinue d)
    (hrest : ∀ d, rest.head? = some d → Text.isIdentContinue d = false) :
    next c (more ++ rest) = match TokenKind.ofKeyword? (String.ofList (c :: more)) with
      | some k => ⟨k, "", more.length⟩
      | none => ⟨.ident, String.ofList (c :: more), more.length⟩ := by
  have hnext := next_of_isIdentStart hc (more ++ rest)
  rw [ofWord, run, takeWhile_of_stops hmore hrest] at hnext
  exact hnext

/-- A token of the kind is scanned from a text with what comes after it, if it ends there. -/
def Reads (kind : TokenKind) (literal : String) (text : List Char) : Prop :=
  ∃ c more, text = c :: more ∧ kind.opens c ∧ ∀ rest : List Char, (∀ d, rest.head? = some d → kind.endsBefore d) →
    next c (more ++ rest) = ⟨kind, literal, more.length⟩

theorem reads_keyword {k : TokenKind} (hword : k.isWord) (hfixed : k.isFixed)
    (hk : TokenKind.ofKeyword? k.surface = some k) (hident : Text.isIdent k.surface.toList) :
    Reads k "" k.surface.toList := by
  cases hsurface : k.surface.toList with
  | nil => rw [hsurface] at hident; cases hident
  | cons c more =>
    rw [hsurface, Text.isIdent, Bool.and_eq_true, List.all_eq_true] at hident
    refine ⟨c, more, rfl, ?_, fun rest hrest => ?_⟩
    · rw [TokenKind.opens_of_isFixed hfixed, hsurface]
      exact beq_iff_eq.2 rfl
    · rw [next_word hident.1 hident.2 fun d hd => ?_, ← hsurface, String.ofList_toList, hk]
      have hends := hrest d hd
      rw [TokenKind.endsBefore_of_isWord hword] at hends
      simpa using hends

theorem reads_either {first second : Char} {long short : TokenKind}
    (hnext : ∀ cs, next first cs = either cs second long short) (hopens : short.opens first)
    (hends : ∀ d, short.endsBefore d → d ≠ second) : Reads short "" [first] := by
  refine ⟨first, [], rfl, hopens, fun rest hrest => ?_⟩
  rw [List.nil_append, hnext, either, if_neg fun hhead => hends second (hrest second hhead) rfl]
  rfl

/-- What is always written the same way is scanned again. -/
theorem reads_fixed (h : kind.isFixed) : Reads kind "" kind.surface.toList := by
  have hne (d : Char) (h : (d != '=') = true) : d ≠ '=' := bne_iff_ne.1 h
  cases kind
  case assign | bang | lt | gt | colon => exact reads_either (fun _ => rfl) rfl hne
  case slash =>
    refine ⟨'/', [], rfl, rfl, fun rest hrest => ?_⟩
    rw [List.nil_append, next_slash, if_neg fun hhead => bne_iff_ne.1 (hrest '/' hhead) rfl]
    rfl
  case dot =>
    refine ⟨'.', [], rfl, rfl, fun rest hrest => ?_⟩
    rw [List.nil_append]
    refine next_dot ?_
    rintro ⟨tail, rfl⟩
    exact bne_iff_ne.1 (hrest '.' rfl) rfl
  case num | string | bool | any | «true» | «false» | and | or | «if» | «else» | func | «return» | on | «for»
      | range | «while» | «break» | «end» =>
    exact reads_keyword rfl rfl rfl (by decide)
  all_goals first | (cases h; done) | exact ⟨_, _, rfl, rfl, fun _ _ => rfl⟩

theorem reads_ident (h : TokenKind.ident.Spells literal) : Reads .ident literal literal.toList := by
  obtain ⟨hident, hnone⟩ := h
  cases hchars : literal.toList with
  | nil => rw [hchars] at hident; cases hident
  | cons c more =>
    rw [hchars, Text.isIdent, Bool.and_eq_true, List.all_eq_true] at hident
    refine ⟨c, more, rfl, hident.1, fun rest hrest => ?_⟩
    rw [next_word hident.1 hident.2 fun d hd => ?_, ← hchars, String.ofList_toList, hnone]
    simpa [TokenKind.endsBefore, TokenKind.isWord] using hrest d hd

theorem reads_number (h : TokenKind.numLit.Spells literal) : Reads .numLit literal literal.toList := by
  obtain ⟨c, more, hchars, hc, hmore⟩ := h
  have hstart : ¬ Text.isIdentStart c := fun hstart => by
    rw [TokenKind.isDigit_eq_false_of_isIdentStart hstart] at hc
    cases hc
  refine ⟨c, more, hchars, hc, fun rest hrest => ?_⟩
  rw [next_of_isDigit hstart hc, run, takeWhile_of_stops hmore
    fun d hd => by simpa [TokenKind.endsBefore] using hrest d hd,
    ← hchars, String.ofList_toList]

theorem reads_comment (h : TokenKind.comment.Spells literal) : Reads .comment literal literal.toList := by
  obtain ⟨more, hchars, hline⟩ := h
  refine ⟨'/', '/' :: more, hchars, rfl, fun rest hrest => ?_⟩
  have hmore : ∀ d ∈ '/' :: more, (d != '\n') = true := fun d hd => bne_iff_ne.2 (by
    rintro rfl
    rcases List.mem_cons.1 hd with h | h
    · cases h
    · exact hline h)
  have htake : ('/' :: more ++ rest).takeWhile (· != '\n') = '/' :: more :=
    takeWhile_of_stops hmore fun d hd => by simpa [TokenKind.endsBefore] using hrest d hd
  have hslash : ('/' :: more ++ rest).head? = some '/' := rfl
  rw [next_slash, if_pos hslash, run, htake, ← hchars, String.ofList_toList]

/-- Tokens are scanned again from what they are written as. -/
theorem reads_format (h : kind.Spells literal) (pos : Position) :
    Reads kind literal (Token.format ⟨kind, literal, pos⟩).toList := by
  cases kind
  case ident => exact reads_ident h
  case numLit => exact reads_number h
  case comment => exact reads_comment h
  case stringLit =>
    refine ⟨'"', Text.escapeAll literal.toList ++ ['"'], String.toList_ofList, rfl, fun rest _ => ?_⟩
    rw [List.append_assoc, List.length_append]
    exact next_quote literal rest
  case illegal | eof | ws => exact h.elim
  all_goals
    obtain rfl : literal = "" := h
    exact reads_fixed rfl

/-- Blanks are scanned as one. -/
theorem reads_blank (more : Nat) : Reads .ws "" (List.replicate (more + 1) ' ') := by
  refine ⟨' ', List.replicate more ' ', rfl, rfl, fun rest hrest => ?_⟩
  have htake : (List.replicate more ' ' ++ rest).takeWhile isSpacing = List.replicate more ' ' :=
    takeWhile_of_stops (fun d hd => by rw [List.eq_of_mem_replicate hd]; rfl) fun d hd => by
      simpa [TokenKind.endsBefore] using hrest d hd
  show (⟨.ws, "", _⟩ : Lexeme) = _
  rw [htake]

end Lexeme

/-! ### Neighbours in a source -/

namespace Token

/-- The first of two tokens that stand next to each other in a source ends where the other one starts. -/
structure Beside (t u : Token) : Prop where
  kind : t.kind ≠ .eof
  starts : u.kind = .eof ∨ ∃ d, u.kind.opens d ∧ (t.kind.isSign = false → t.kind.endsBefore d)

section
variable {t u : Token} {pos : Position} {text : List Char} {tokens : List Token}

theorem Cut.beside (h : Cut pos text tokens) (hlegal : ∀ t ∈ tokens, t.kind ≠ .illegal) : tokens.IsChain Beside := by
  induction h with
  | eof => exact .singleton _
  | @token pos c more rest kind literal tokens hnext hrest ih =>
    obtain ⟨hkind, htokens⟩ := List.forall_mem_cons.1 hlegal
    have hscanned := Lexeme.next_scanned c (more ++ rest)
    have hlive : kind ≠ .eof := by
      rintro rfl
      rw [hnext] at hscanned
      have hopens := hscanned.opens nofun
      cases beq_iff_eq.1 hopens
    cases hrest with
    | eof => exact .cons_cons ⟨hlive, .inl rfl⟩ (.singleton _)
    | @token _ d more' rest' kind' literal' tokens' hnext' hrest' =>
      refine .cons_cons ⟨hlive, .inr ⟨d, ?_, fun hsign => ?_⟩⟩ (ih htokens)
      · have hscanned' := Lexeme.next_scanned d (more' ++ rest')
        rw [hnext'] at hscanned'
        exact hscanned'.opens (htokens _ List.mem_cons_self)
      · rw [hnext] at hscanned
        exact hscanned.endsBefore rfl hsign hkind rfl

theorem Cut.spells (h : Cut pos text tokens) :
    ∀ t ∈ tokens, t.kind ≠ .illegal → t.kind ≠ .ws → t.kind ≠ .eof → t.kind.Spells t.literal := by
  induction h with
  | eof => simp
  | @token pos c more rest kind literal tokens hnext _ ih =>
    refine List.forall_mem_cons.2 ⟨fun hillegal hws _ => ?_, ih⟩
    have hscanned := Lexeme.next_scanned c (more ++ rest)
    rw [hnext] at hscanned
    exact hscanned.spells hillegal hws

theorem Beside.ws (h : t.Beside u) (hk : t.kind = .ws) : u.kind ≠ .ws := by
  intro hu
  rcases h.starts with heof | ⟨d, hd, hends⟩
  · cases hu.symm.trans heof
  · rw [hk] at hends
    rw [hu] at hd
    have hends := hends rfl
    rcases Bool.or_eq_true_iff.1 hd with h | h <;> rw [beq_iff_eq.1 h] at hends <;> cases hends

theorem Beside.comment (h : t.Beside u) (hk : t.kind = .comment) : u.kind = .nl ∨ u.kind = .eof := by
  rcases h.starts with heof | ⟨d, hd, hends⟩
  · exact .inr heof
  · rw [hk] at hends
    obtain rfl : d = '\n' := beq_iff_eq.1 (hends rfl)
    refine .inl ?_
    generalize u.kind = k at hd
    cases k <;> first | rfl | exact absurd hd (by decide)

/-- A word or a number in a source does not go on with the token after it. -/
theorem Beside.runsInto (h : t.Beside u) (hk : t.kind.isWord ∨ t.kind = .numLit) : t.kind.runsInto u.kind = false := by
  obtain ⟨hlive, heof | ⟨d, hd, hends⟩⟩ := h
  · rw [heof]
    generalize t.kind = k at hk
    rcases hk with hk | rfl
    · cases k <;> first | rfl | cases hk
    · rfl
  · generalize u.kind = next at hd
    rcases hk with hk | hk
    · have hfalse : Text.isIdentContinue d = false := by
        have hends := hends (by generalize t.kind = k at hk; cases k <;> first | rfl | cases hk)
        rw [TokenKind.endsBefore_of_isWord hk] at hends
        simpa using hends
      have hword : next.isWord = false := by
        refine Bool.eq_false_iff.2 fun hword => ?_
        rw [Text.isIdentContinue_of_isIdentStart (TokenKind.isIdentStart_of_opens hd hword)] at hfalse
        cases hfalse
      have hnum : next ≠ .numLit := by
        rintro rfl
        rw [TokenKind.isIdentContinue_of_isDigit hd] at hfalse
        cases hfalse
      rw [TokenKind.runsInto_of_isWord hk, hword, Bool.false_or, beq_eq_false_iff_ne]
      exact hnum
    · rw [hk] at hends ⊢
      have hends : (!(d.isDigit || d == '.')) = true := hends rfl
      have hnum : next ≠ .numLit := by
        rintro rfl
        rw [show d.isDigit = true from hd] at hends
        cases hends
      have hdot : next ≠ .dot ∧ next ≠ .dot3 := by
        constructor <;>
        · rintro rfl
          rw [← Option.some.inj (beq_iff_eq.1 hd)] at hends
          cases hends
      simp [TokenKind.runsInto, hnum, hdot]

end

end Token

end TinyScript
