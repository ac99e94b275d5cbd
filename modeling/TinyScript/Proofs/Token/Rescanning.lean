import TinyScript.Proofs.Text.Quoting
import TinyScript.Proofs.Token.Covering

/-!
# Scanning what tokens are written as

Tokens that are written one after the other are scanned as the same tokens. Only two kinds change
their text: blanks shrink to one space and strings are quoted anew. So what follows a token changes
no more than `Alike` allows, and no token looks further ahead than that.
-/

namespace TinyScript

namespace Lexeme

/-! ### What a lexeme sees of the rest -/

/-- Rests of a source that the lexeme before them cannot tell apart. A lexeme looks at one character,
where a tab is as good as a space, and a dot looks at two more dots. -/
structure Alike (rest rest' : List Char) : Prop where
  head : rest.head? = rest'.head? ∨ (rest.head? = some '\t' ∧ rest'.head? = some ' ')
  dots : (∃ tail, rest = '.' :: '.' :: tail) ↔ ∃ tail, rest' = '.' :: '.' :: tail

section
variable {c d : Char} {kind : TokenKind} {literal : String} {more rest rest' : List Char} {p : Char → Bool}

theorem head?_congr (h : Alike rest rest') (hspace : d ≠ ' ') (htab : d ≠ '\t') :
    (more ++ rest).head? = some d ↔ (more ++ rest').head? = some d := by
  cases more with
  | cons => exact Iff.rfl
  | nil =>
    rw [List.nil_append, List.nil_append]
    rcases h.head with heq | ⟨htabs, hspaces⟩
    · rw [heq]
    · rw [htabs, hspaces]
      exact ⟨fun h => absurd (Option.some.inj h).symm htab, fun h => absurd (Option.some.inj h).symm hspace⟩

/-- Characters are taken up to the rest if they satisfy `p` and the rest does not go on so. -/
theorem takeWhile_append_eq_iff :
    (more ++ rest).takeWhile p = more ↔ (∀ d ∈ more, p d) ∧ ∀ d, rest.head? = some d → ¬ p d := by
  induction more with
  | nil =>
    cases rest with
    | nil => simp
    | cons d rest => simp [List.takeWhile_cons]
  | cons d more ih =>
    by_cases hd : p d
    · rw [List.cons_append, List.takeWhile_cons_of_pos hd, List.cons_inj_right, ih, List.forall_mem_cons]
      exact ⟨fun h => ⟨⟨hd, h.1⟩, h.2⟩, fun h => ⟨h.1.2, h.2⟩⟩
    · rw [List.cons_append, List.takeWhile_cons_of_neg hd]
      exact ⟨fun h => absurd h (List.cons_ne_nil _ _).symm, fun h => absurd (h.1 d List.mem_cons_self) hd⟩

theorem takeWhile_eq_of_length (h : ((more ++ rest).takeWhile p).length = more.length) :
    (more ++ rest).takeWhile p = more := by
  rw [← take_takeWhile, h, List.take_left]

theorem takeWhile_congr (h : Alike rest rest') (hp : p '\t' = p ' ')
    (hmore : (more ++ rest).takeWhile p = more) : (more ++ rest').takeWhile p = more := by
  obtain ⟨hall, hstop⟩ := takeWhile_append_eq_iff.1 hmore
  refine takeWhile_append_eq_iff.2 ⟨hall, fun d hd => ?_⟩
  rcases h.head with heq | ⟨htab, hspace⟩
  · exact hstop d (heq.trans hd)
  · rw [hspace] at hd
    cases hd
    rw [← hp]
    exact hstop '\t' htab

theorem run_congr (h : Alike rest rest') (hp : p '\t' = p ' ')
    (hextra : (run kind c (more ++ rest) p).extra = more.length) :
    run kind c (more ++ rest') p = run kind c (more ++ rest) p := by
  have hmore := takeWhile_eq_of_length hextra
  unfold run
  rw [hmore, takeWhile_congr h hp hmore]

theorem either_congr {second : Char} {long short : TokenKind} (h : Alike rest rest') (hspace : second ≠ ' ')
    (htab : second ≠ '\t') : either (more ++ rest') second long short = either (more ++ rest) second long short := by
  unfold either
  exact if_congr (head?_congr h hspace htab).symm rfl rfl

theorem ofWord_congr [Text.IdentChars] (h : Alike rest rest') (hextra : (ofWord c (more ++ rest)).extra = more.length) :
    ofWord c (more ++ rest') = ofWord c (more ++ rest) := by
  have hrun : run .ident c (more ++ rest') Text.isIdentContinue = run .ident c (more ++ rest) Text.isIdentContinue := by
    refine run_congr h ?_ ?_
    · rw [Text.isIdentContinue_ascii (by decide), Text.isIdentContinue_ascii (by decide)]
      decide
    rw [← hextra]
    unfold ofWord
    dsimp only
    split <;> rfl
  unfold ofWord
  rw [hrun]

theorem ofString_kind (cs : List Char) (hillegal : kind ≠ .illegal) (hstring : kind ≠ .stringLit) :
    (ofString cs).kind ≠ kind := by
  unfold ofString
  dsimp only
  split
  · split
    · exact hstring.symm
    · exact hillegal.symm
  · exact hillegal.symm

section
variable [Text.IdentChars]

theorem next_of_isIdentStart (h : Text.isIdentStart c) (cs : List Char) : next c cs = ofWord c cs := by
  unfold next
  split
  case h_22 => exact if_pos h
  all_goals
    rw [Text.isIdentStart_ascii (by decide)] at h
    exact absurd h (by decide)

theorem next_of_isDigit (hstart : ¬ Text.isIdentStart c) (h : c.isDigit) (cs : List Char) :
    next c cs = run .numLit c cs fun d => d.isDigit || d == '.' := by
  unfold next
  split
  case h_22 => rw [if_neg hstart, if_pos h]
  all_goals exact absurd h (by decide)

theorem next_dot (h : ¬ ∃ tail, rest = '.' :: '.' :: tail) : next '.' rest = ⟨.dot, "", 0⟩ := by
  simp only [next]
  split
  case h_1 tail => exact absurd ⟨tail, rfl⟩ h
  case h_2 => rfl

theorem next_slash (cs : List Char) :
    next '/' cs = if cs.head? = some '/' then run .comment '/' cs (· != '\n') else ⟨.slash, "", 0⟩ :=
  rfl

theorem slash_congr (h : Alike rest rest') (hextra : (next '/' (more ++ rest)).extra = more.length) :
    next '/' (more ++ rest') = next '/' (more ++ rest) := by
  have hsecond : (more ++ rest).head? = some '/' ↔ (more ++ rest').head? = some '/' :=
    head?_congr h (by decide) (by decide)
  rw [next_slash] at hextra
  rw [next_slash, next_slash]
  split at hextra
  case isTrue hslash =>
    rw [if_pos (hsecond.1 hslash), if_pos hslash]
    exact run_congr h (by decide) hextra
  case isFalse hslash => rw [if_neg (mt hsecond.2 hslash), if_neg hslash]

theorem dot_congr (h : Alike rest rest') (hextra : (next '.' (more ++ rest)).extra = more.length) :
    next '.' (more ++ rest') = next '.' (more ++ rest) := by
  by_cases hdots : ∃ tail, more ++ rest = '.' :: '.' :: tail
  · obtain ⟨tail, hdots⟩ := hdots
    rw [hdots] at hextra
    -- both further dots belong to the lexeme
    match more, (hextra : 2 = more.length) with
    | [first, second], _ =>
      obtain ⟨rfl, rfl, -⟩ : first = '.' ∧ second = '.' ∧ rest = tail := by simpa using hdots
      rfl
  · rw [next_dot hdots] at hextra
    obtain rfl := List.length_eq_zero_iff.1 hextra.symm
    exact (next_dot (mt h.dots.2 hdots)).trans (next_dot hdots).symm

/-- A lexeme is the same before rests that it cannot tell apart, unless it is made of blanks, is a
string or is illegal. -/
theorem next_congr (h : Alike rest rest') (hnext : next c (more ++ rest) = ⟨kind, literal, more.length⟩)
    (hillegal : kind ≠ .illegal) (hws : kind ≠ .ws) (hstring : kind ≠ .stringLit) :
    next c (more ++ rest') = ⟨kind, literal, more.length⟩ := by
  have hextra : (next c (more ++ rest)).extra = more.length := congrArg Lexeme.extra hnext
  have hkind : (next c (more ++ rest)).kind = kind := congrArg Lexeme.kind hnext
  rw [← hnext]
  clear hnext
  by_cases hstart : Text.isIdentStart c
  · rw [next_of_isIdentStart hstart] at hextra
    rw [next_of_isIdentStart hstart, next_of_isIdentStart hstart]
    exact ofWord_congr h hextra
  by_cases hdigit : c.isDigit
  · rw [next_of_isDigit hstart hdigit] at hextra
    rw [next_of_isDigit hstart hdigit, next_of_isDigit hstart hdigit]
    exact run_congr h (by decide) hextra
  unfold next at hkind
  split at hkind
  case h_1 | h_2 => exact absurd hkind.symm hws
  case h_3 | h_6 | h_10 | h_11 | h_12 => exact either_congr h (by decide) (by decide)
  case h_7 => exact slash_congr h hextra
  case h_20 => exact dot_congr h hextra
  case h_21 => exact absurd hkind (ofString_kind _ hillegal hstring)
  case h_22 =>
    rw [if_neg hstart, if_neg hdigit] at hkind
    exact absurd hkind.symm hillegal
  all_goals rfl

end

end

/-! ### Strings -/

theorem stringBody_backslash (count : Nat) (o : Char) (cs : List Char) (h : o ≠ '\n') :
    stringBody count false ('\\' :: o :: cs) = stringBody (count + 2) false cs := by
  rw [stringBody, if_neg (by decide), if_neg (by decide), if_pos rfl, stringBody, if_neg h, if_neg (by simp)]
  split <;> rfl

theorem stringBody_plain (count : Nat) {d : Char} (cs : List Char) (hquote : d ≠ '"') (hslash : d ≠ '\\')
    (hnewline : d ≠ '\n') : stringBody count false (d :: cs) = stringBody (count + 1) false cs := by
  rw [stringBody, if_neg hnewline, if_neg (by simp [hquote]), if_neg hslash]

theorem hexDigit_plain : ∀ n < 16,
    Text.hexDigit n ≠ '"' ∧ Text.hexDigit n ≠ '\\' ∧ Text.hexDigit n ≠ '\n' := by
  decide

theorem stringBody_escape (count : Nat) (c : Char) (cs : List Char) :
    stringBody count false (Text.escape c ++ cs) = stringBody (count + (Text.escape c).length) false cs := by
  rcases Text.escape_cases c with ⟨o, ho, hescape⟩ | ⟨hlt, hescape⟩ | ⟨hquote, hslash, hnewline, hescape⟩
  · rw [hescape]
    exact stringBody_backslash count o cs (Text.simpleEscape?_of_mem _ ho).2.2.2.2
  · obtain ⟨hquote, hslash, hnewline⟩ := hexDigit_plain (c.toNat / 16) (by omega)
    obtain ⟨hquote', hslash', hnewline'⟩ := hexDigit_plain (c.toNat % 16) (by omega)
    rw [hescape]
    calc stringBody count false ('\\' :: 'x' :: Text.hexDigit (c.toNat / 16) :: Text.hexDigit (c.toNat % 16) :: cs)
      _ = stringBody (count + 2) false (Text.hexDigit (c.toNat / 16) :: Text.hexDigit (c.toNat % 16) :: cs) :=
        stringBody_backslash _ _ _ (by decide)
      _ = stringBody (count + 2 + 1) false (Text.hexDigit (c.toNat % 16) :: cs) :=
        stringBody_plain _ _ hquote hslash hnewline
      _ = stringBody (count + 2 + 1 + 1) false cs := stringBody_plain _ _ hquote' hslash' hnewline'
  · rw [hescape]
    exact stringBody_plain count cs hquote hslash hnewline

/-- A text in quotes ends at the quote after it. -/
theorem stringBody_escapeAll (count : Nat) (value rest : List Char) :
    stringBody count false (Text.escapeAll value ++ '"' :: rest) =
      (count + (Text.escapeAll value).length, true) := by
  induction value generalizing count with
  | nil => rfl
  | cons c value ih =>
    have hcons : Text.escapeAll (c :: value) = Text.escape c ++ Text.escapeAll value := rfl
    rw [hcons, List.append_assoc, stringBody_escape, ih, List.length_append, Nat.add_assoc]

theorem next_quote [Text.IdentChars] (value : String) (rest : List Char) :
    next '"' (Text.escapeAll value.toList ++ '"' :: rest) =
      ⟨.stringLit, value, (Text.escapeAll value.toList).length + 1⟩ := by
  show ofString _ = _
  rw [ofString, stringBody_escapeAll, Nat.zero_add]
  dsimp only
  rw [if_pos rfl, List.take_left, Text.unquote_escapeAll]
  dsimp only
  rw [String.ofList_toList]

namespace Alike
variable {c d : Char} {more rest rest' : List Char}

theorem refl (rest : List Char) : Alike rest rest :=
  ⟨.inl rfl, Iff.rfl⟩

theorem cons (h : Alike rest rest') (c : Char) (more : List Char) :
    Alike (c :: (more ++ rest)) (c :: (more ++ rest')) := by
  refine ⟨.inl rfl, ?_⟩
  have hdots (cs : List Char) : (∃ tail, c :: cs = '.' :: '.' :: tail) ↔ c = '.' ∧ cs.head? = some '.' := by
    rw [List.head?_eq_some_iff]
    simp
  rw [hdots, hdots, head?_congr h (by decide) (by decide)]

theorem of_ne_dot (hc : c ≠ '.') (hd : d ≠ '.') (h : c = d ∨ (c = '\t' ∧ d = ' ')) (cs ds : List Char) :
    Alike (c :: cs) (d :: ds) := by
  refine ⟨?_, by simp [hc, hd]⟩
  rcases h with rfl | ⟨rfl, rfl⟩
  · exact .inl rfl
  · exact .inr ⟨rfl, rfl⟩

end Alike
end Lexeme

/-! ### Tokens -/

namespace Token
open Lexeme
section
variable {c : Char} {kind : TokenKind} {literal : String} {more rest rest' : List Char}

/-- What is neither a blank nor a string is written as it was. -/
theorem format_of_written {text : List Char} (h : kind.Written literal text) (hillegal : kind ≠ .illegal)
    (hws : kind ≠ .ws) (hstring : kind ≠ .stringLit) (pos : Position) :
    (format ⟨kind, literal, pos⟩).toList = text := by
  cases kind
  case illegal => exact absurd rfl hillegal
  case ws => exact absurd rfl hws
  case stringLit => exact absurd rfl hstring
  case eof => exact h.elim
  all_goals exact h.symm

variable [Text.IdentChars]

/-- Blanks are written as one space, which stays one token. -/
theorem next_space (h : Alike rest rest') (hc : c = ' ' ∨ c = '\t')
    (hnext : next c (more ++ rest) = ⟨kind, literal, more.length⟩) :
    literal = "" ∧ next ' ' rest' = ⟨.ws, "", 0⟩ := by
  have hrun : next c (more ++ rest) = ⟨.ws, "", ((more ++ rest).takeWhile isSpacing).length⟩ := by
    rcases hc with rfl | rfl <;> rfl
  obtain ⟨-, hliteral, hlength⟩ := Lexeme.mk.inj (hrun.symm.trans hnext)
  have hmore := takeWhile_congr h (by decide) (takeWhile_eq_of_length hlength)
  have hempty : ([] ++ rest').takeWhile isSpacing = [] :=
    takeWhile_append_eq_iff.2 ⟨fun _ h => (List.not_mem_nil h).elim, (takeWhile_append_eq_iff.1 hmore).2⟩
  have hnone : rest'.takeWhile isSpacing = [] := hempty
  refine ⟨hliteral.symm, ?_⟩
  show (⟨.ws, "", (rest'.takeWhile isSpacing).length⟩ : Lexeme) = _
  rw [hnone]
  rfl

/-- A token is scanned again from what it is written as, with the same in front of it. -/
theorem next_format (h : Alike rest rest') (hnext : next c (more ++ rest) = ⟨kind, literal, more.length⟩)
    (hlegal : kind ≠ .illegal) (pos : Position) :
    ∃ d more', (format ⟨kind, literal, pos⟩).toList = d :: more' ∧
      next d (more' ++ rest') = ⟨kind, literal, more'.length⟩ ∧
      Alike (c :: (more ++ rest)) (d :: (more' ++ rest')) := by
  have hwritten := Cut.token_written hnext
  by_cases hws : kind = .ws
  · subst hws
    obtain ⟨_, _, htext, hc, -⟩ := hwritten
    obtain ⟨rfl, -⟩ := List.cons.inj htext
    obtain ⟨rfl, hspace⟩ := next_space h hc hnext
    refine ⟨' ', [], ?_, hspace, .of_ne_dot ?_ (by decide) ?_ _ _⟩
    · show TokenKind.ws.surface.toList = [' ']
      rfl
    · rcases hc with rfl | rfl <;> decide
    · rcases hc with rfl | rfl
      · exact .inl rfl
      · exact .inr ⟨rfl, rfl⟩
  by_cases hstring : kind = .stringLit
  · subst hstring
    obtain ⟨body, htext, -⟩ := hwritten
    obtain ⟨rfl, -⟩ := List.cons.inj htext
    refine ⟨'"', Text.escapeAll literal.toList ++ ['"'], ?_, ?_, .of_ne_dot (by decide) (by decide) (.inl rfl) _ _⟩
    · exact String.toList_ofList
    · rw [List.append_assoc, List.length_append]
      exact next_quote literal rest'
  · exact ⟨c, more, format_of_written hwritten hlegal hws hstring pos,
      next_congr h hnext hlegal hws hstring, h.cons c more⟩

/-- What tokens that cut a text are written as is cut into the same tokens at other places. -/
theorem Cut.format {pos : Position} {text : List Char} {tokens : List Token} (h : Cut pos text tokens)
    (hlegal : ∀ t ∈ tokens, t.kind ≠ .illegal) (pos' : Position) :
    ∃ tokens', Cut pos' (tokens.flatMap (·.format.toList)) tokens' ∧
      tokens'.map (fun t => (t.kind, t.literal)) = tokens.map (fun t => (t.kind, t.literal)) ∧
      Alike text (tokens.flatMap (·.format.toList)) := by
  induction h generalizing pos' with
  | eof pos => exact ⟨_, .eof pos', rfl, .refl []⟩
  | @token pos c more rest kind literal tokens hnext _ ih =>
    obtain ⟨hkind, hrest⟩ := List.forall_mem_cons.1 hlegal
    -- the text of the later tokens does not depend on their places
    obtain ⟨-, -, -, hlike⟩ := ih hrest pos'
    obtain ⟨d, more', hformat, hnext', hhead⟩ := next_format hlike hnext hkind pos
    obtain ⟨tokens', hcut, hwords, -⟩ := ih hrest (pos'.afterAll (d :: more'))
    refine ⟨⟨kind, literal, pos'⟩ :: tokens', ?_, ?_, ?_⟩
    · rw [List.flatMap_cons, hformat]
      exact .token hnext' hcut
    · rw [List.map_cons, List.map_cons, hwords]
    · rw [List.flatMap_cons, hformat]
      exact hhead

/-- Writing the tokens of a source without illegal tokens and scanning again gives the same kinds
and literals. -/
theorem scan_format (source : String) (h : ∀ t ∈ scan source, t.kind ≠ .illegal) :
    (scan (String.join ((scan source).toList.map format))).map (fun t => (t.kind, t.literal)) =
      (scan source).map fun t => (t.kind, t.literal) := by
  obtain ⟨tokens, hcut, hwords, -⟩ := (scan_cut source).format (fun t ht => h t (Array.mem_toList_iff.1 ht)) .start
  have htext : (String.join ((scan source).toList.map format)).toList =
      (scan source).toList.flatMap (·.format.toList) := by
    rw [String.toList_join, List.flatMap_map]
  have hscan : scan (String.join ((scan source).toList.map format)) = tokens.toArray := by
    rw [scan, htext, scanFrom_of_cut hcut]
    simp
  rw [hscan, List.map_toArray, hwords, ← List.map_toArray, Array.toArray_toList]

end

/-- Blanks of all kinds, dots next to digits and to each other, and all sorts of escapes. -/
def mixedSource : String :=
  "x\t\r :=.1.5...y \"\\x41\\t\\\"\"//  z\n"

theorem mixedSource_format :
    (∀ t ∈ scan mixedSource, t.kind ≠ .illegal) ∧
    (scan (String.join ((scan mixedSource).toList.map format))).map (fun t => (t.kind, t.literal)) =
      (scan mixedSource).map fun t => (t.kind, t.literal) := by
  have h : ∀ t ∈ scan mixedSource, t.kind ≠ .illegal := by decide +kernel
  exact ⟨h, scan_format mixedSource h⟩

/-! ### Quoted texts -/

variable [Text.IdentChars]

/-- A text in quotes is cut into one string and the end of input. -/
theorem cut_quote (s : String) : Cut .start (Text.quote s).toList
    [⟨.stringLit, s, .start⟩, ⟨.eof, "", .ending (Text.quote s).toList⟩] := by
  let more := Text.escapeAll s.toList ++ ['"']
  have htext : (Text.quote s).toList = '"' :: (more ++ []) := by
    rw [List.append_nil]
    exact String.toList_ofList
  have hnext : next '"' (more ++ []) = ⟨.stringLit, s, more.length⟩ := by
    rw [List.append_nil, List.length_append]
    exact next_quote s []
  have hend : Position.ending (Text.quote s).toList = Position.start.afterAll ('"' :: more) := by
    rw [htext, List.append_nil]
    exact (Position.afterAll_ending [] ('"' :: more)).symm
  rw [hend, htext]
  exact .token hnext (.eof _)

/-- What stands between the quotes of a quoted text reads as the text, and a quoted text is scanned as one
string with that text, which goes up to the end of input. -/
theorem scan_quote (s : String) :
    (∃ body, (Text.quote s).toList = '"' :: (body ++ ['"']) ∧ Text.unquote body = some s.toList) ∧
      scan (Text.quote s) = #[⟨.stringLit, s, .start⟩, ⟨.eof, "", .ending (Text.quote s).toList⟩] := by
  refine ⟨⟨Text.escapeAll s.toList, String.toList_ofList, Text.unquote_escapeAll s.toList⟩, ?_⟩
  have hscan := scanFrom_of_cut (cut_quote s) #[]
  exact hscan.trans (by simp)

end Token
end TinyScript
