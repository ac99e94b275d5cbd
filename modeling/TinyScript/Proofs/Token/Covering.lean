import Mathlib.Data.List.TakeWhile
import TinyScript.Token.Lexer

/-!
# The tokens cover the source

A source is cut into the texts of its tokens: nothing is left out, nothing belongs to two tokens, and
the text of a token is one of the ways to write it. `Cut` is the walk of `Token.scan` one token at a
time, and what holds of every token is shown by induction on it. The places of tokens are those of
the text before them.
-/

namespace TinyScript

namespace Position

/-- The place after some characters. -/
def afterAll (p : Position) (cs : List Char) : Position :=
  cs.foldl after p

/-- The place at the end of a text that starts a source. -/
def ending (cs : List Char) : Position :=
  ⟨cs.length, 1 + cs.count '\n', 1 + (cs.reverse.takeWhile (· != '\n')).length⟩

theorem afterAll_append (p : Position) (cs ds : List Char) :
    p.afterAll (cs ++ ds) = (p.afterAll cs).afterAll ds :=
  List.foldl_append

theorem offset_afterAll (p : Position) (cs : List Char) : (p.afterAll cs).offset = p.offset + cs.length := by
  induction cs generalizing p with
  | nil => rfl
  | cons c cs ih =>
    have hafter : (p.after c).offset = p.offset + 1 := by
      unfold after
      split <;> rfl
    exact (ih (p.after c)).trans (by rw [hafter, List.length_cons]; omega)

theorem after_ending (cs : List Char) (c : Char) : (ending cs).after c = ending (cs ++ [c]) := by
  by_cases hc : c = '\n'
  · simp [after, ending, hc, Nat.add_assoc]
  · simp [after, ending, hc, Nat.add_comm]

theorem afterAll_ending (cs ds : List Char) : (ending cs).afterAll ds = ending (cs ++ ds) := by
  induction ds generalizing cs with
  | nil => rw [List.append_nil]; rfl
  | cons d ds ih =>
    calc (ending cs).afterAll (d :: ds) = ((ending cs).after d).afterAll ds := rfl
      _ = (ending (cs ++ [d])).afterAll ds := by rw [after_ending]
      _ = ending (cs ++ d :: ds) := by rw [ih, List.append_assoc, List.singleton_append]

end Position

/-! ### The texts of tokens -/

/-- Whether a token of the kind with the literal can be written as `text`. An illegal token can be
any text, the end of input has none. -/
def TokenKind.Written (kind : TokenKind) (literal : String) (text : List Char) : Prop :=
  match kind with
  | .illegal => text ≠ []
  | .eof => False
  | .ident | .numLit | .comment => text = literal.toList
  | .ws => ∃ c more, text = c :: more ∧ (c = ' ' ∨ c = '\t') ∧ ∀ d ∈ more, d = ' ' ∨ d = '\t' ∨ d = '\r'
  | .stringLit => ∃ body, text = '"' :: (body ++ ['"']) ∧ Text.unquote body = some literal.toList
  | kind => text = kind.surface.toList

theorem TokenKind.surface_of_ofKeyword? {word : String} {kind : TokenKind} (h : ofKeyword? word = some kind) :
    kind.surface = word ∧ ∀ literal text, kind.Written literal text ↔ text = kind.surface.toList := by
  unfold ofKeyword? at h
  split at h
  case h_19 => cases h
  all_goals
    cases h
    exact ⟨rfl, fun _ _ => Iff.rfl⟩

namespace Lexeme

/-- The lexeme stands for `c` and the characters it has after the first. -/
structure Stands (lexeme : Lexeme) (c : Char) (cs : List Char) : Prop where
  extra_le : lexeme.extra ≤ cs.length
  written : lexeme.kind.Written lexeme.literal (c :: cs.take lexeme.extra)

theorem take_takeWhile (p : Char → Bool) (cs : List Char) : cs.take (cs.takeWhile p).length = cs.takeWhile p :=
  (List.prefix_iff_eq_take.1 (List.takeWhile_prefix p)).symm

section
variable {c : Char} {cs : List Char}

theorem either_stands {second : Char} {long short : TokenKind} (hlong : long.Written "" [c, second])
    (hshort : short.Written "" [c]) : (either cs second long short).Stands c cs := by
  unfold either
  split
  case isTrue hsecond =>
    obtain ⟨more, rfl⟩ := List.head?_eq_some_iff.1 hsecond
    exact ⟨Nat.succ_le_succ (Nat.zero_le _), hlong⟩
  case isFalse => exact ⟨Nat.zero_le _, hshort⟩

theorem run_written (kind : TokenKind) (p : Char → Bool) :
    (run kind c cs p).extra ≤ cs.length ∧ c :: cs.take (run kind c cs p).extra = (run kind c cs p).literal.toList := by
  refine ⟨(List.takeWhile_prefix p).length_le, ?_⟩
  rw [run, take_takeWhile, String.toList_ofList]

theorem ofWord_stands [Text.IdentChars] : (ofWord c cs).Stands c cs := by
  have hrun : (run .ident c cs Text.isIdentContinue).extra ≤ cs.length ∧
      c :: cs.take (run .ident c cs Text.isIdentContinue).extra =
        (run .ident c cs Text.isIdentContinue).literal.toList := run_written _ _
  obtain ⟨hextra, htext⟩ := hrun
  unfold ofWord
  dsimp only
  split
  case h_1 keyword hkeyword =>
    obtain ⟨hsurface, hwritten⟩ := TokenKind.surface_of_ofKeyword? hkeyword
    exact ⟨hextra, (hwritten _ _).2 (by rw [htext, hsurface])⟩
  case h_2 => exact ⟨hextra, htext⟩

/-- A closed string ends with the first quote that the walk through its body does not skip. -/
theorem stringBody_closed {count n : Nat} {escaped : Bool} (h : stringBody count escaped cs = (n, true)) :
    ∃ body rest, cs = body ++ '"' :: rest ∧ n = count + body.length := by
  induction cs generalizing count escaped with
  | nil => cases h
  | cons c cs ih =>
    have more {e : Bool} (h : stringBody (count + 1) e cs = (n, true)) :
        ∃ body rest, c :: cs = body ++ '"' :: rest ∧ n = count + body.length := by
      obtain ⟨body, rest, hcs, hn⟩ := ih h
      exact ⟨c :: body, rest, by rw [hcs]; rfl, by rw [hn, List.length_cons]; omega⟩
    unfold stringBody at h
    split at h
    · cases h
    split at h
    case isTrue hquote =>
      cases h
      simp only [Bool.and_eq_true, decide_eq_true_eq] at hquote
      exact ⟨[], cs, by rw [hquote.1]; rfl, rfl⟩
    split at h
    · exact more h
    · exact more h

theorem stringBody_le (count : Nat) (escaped : Bool) (cs : List Char) :
    (stringBody count escaped cs).1 ≤ count + cs.length := by
  induction cs generalizing count escaped with
  | nil => exact Nat.le_refl _
  | cons c cs ih =>
    have more (e : Bool) := ih (count + 1) e
    rw [List.length_cons]
    unfold stringBody
    split
    · exact Nat.le_add_right _ _
    split
    · exact Nat.le_add_right _ _
    split
    · have := more (!escaped); omega
    · have := more false; omega

theorem ofString_stands : (ofString cs).Stands '"' cs := by
  rcases hbody : stringBody 0 false cs with ⟨n, closed⟩
  unfold ofString
  rw [hbody]
  cases closed with
  | false =>
    have hle := stringBody_le 0 false cs
    rw [hbody, Nat.zero_add] at hle
    exact ⟨hle, List.cons_ne_nil _ _⟩
  | true =>
    obtain ⟨body, rest, hcs, hn⟩ := stringBody_closed hbody
    rw [Nat.zero_add] at hn
    subst hn
    have htake : cs.take body.length = body := by rw [hcs, List.take_left']; rfl
    have htext : cs.take (body.length + 1) = body ++ ['"'] := by
      rw [hcs, List.take_length_add_append]
      rfl
    have hle : body.length + 1 ≤ cs.length := by
      rw [hcs, List.length_append, List.length_cons]
      omega
    dsimp only
    rw [if_pos rfl, htake]
    split
    case h_1 value hvalue =>
      refine ⟨hle, body, ?_, ?_⟩
      · rw [htext]
      · rw [hvalue, String.toList_ofList]
    case h_2 => exact ⟨hle, List.cons_ne_nil _ _⟩

theorem spacing_stands (hc : c = ' ' ∨ c = '\t') :
    (⟨.ws, "", (cs.takeWhile isSpacing).length⟩ : Lexeme).Stands c cs := by
  refine ⟨(List.takeWhile_prefix _).length_le, c, _, rfl, hc, ?_⟩
  intro d hd
  rw [take_takeWhile] at hd
  have hspacing := List.mem_takeWhile_imp hd
  simp only [isSpacing, Bool.or_eq_true, beq_iff_eq] at hspacing
  rcases hspacing with (h | h) | h
  · exact .inl h
  · exact .inr (.inl h)
  · exact .inr (.inr h)

end

theorem next_stands [Text.IdentChars] (c : Char) (cs : List Char) : (next c cs).Stands c cs := by
  unfold next
  split
  case h_1 => exact spacing_stands (.inl rfl)
  case h_2 => exact spacing_stands (.inr rfl)
  case h_3 => exact either_stands rfl rfl
  case h_4 => exact ⟨Nat.zero_le _, rfl⟩
  case h_5 => exact ⟨Nat.zero_le _, rfl⟩
  case h_6 => exact either_stands rfl rfl
  case h_7 =>
    split
    · exact ⟨(run_written _ _).1, (run_written _ _).2⟩
    · exact ⟨Nat.zero_le _, rfl⟩
  case h_10 => exact either_stands rfl rfl
  case h_11 => exact either_stands rfl rfl
  case h_12 => exact either_stands rfl rfl
  case h_20 =>
    split
    · exact ⟨by simp, rfl⟩
    · exact ⟨Nat.zero_le _, rfl⟩
  case h_21 => exact ofString_stands
  case h_22 =>
    split
    · exact ofWord_stands
    split
    · exact ⟨(run_written _ _).1, (run_written _ _).2⟩
    · exact ⟨Nat.zero_le _, List.cons_ne_nil _ _⟩
  all_goals exact ⟨Nat.zero_le _, rfl⟩

end Lexeme

/-! ### The walk -/

namespace Token
variable [Text.IdentChars]

/-- A text that starts at a place, cut into tokens from its start on. -/
inductive Cut : Position → List Char → List Token → Prop where
  | eof (pos : Position) : Cut pos [] [⟨.eof, "", pos⟩]
  | token {pos : Position} {c : Char} {more rest : List Char} {kind : TokenKind} {literal : String}
    {tokens : List Token} (hnext : Lexeme.next c (more ++ rest) = ⟨kind, literal, more.length⟩)
    (hrest : Cut (pos.afterAll (c :: more)) rest tokens) :
    Cut pos (c :: (more ++ rest)) (⟨kind, literal, pos⟩ :: tokens)

theorem scanFrom_skip (tokens : Array Token) (pos : Position) (more rest : List Char) :
    scanFrom tokens more.length pos (more ++ rest) = scanFrom tokens 0 (pos.afterAll more) rest := by
  induction more generalizing pos with
  | nil => rfl
  | cons c more ih => exact ih (pos.after c)

theorem scanFrom_of_cut {pos : Position} {text : List Char} {tokens : List Token} (h : Cut pos text tokens)
    (before : Array Token) : scanFrom before 0 pos text = before ++ tokens := by
  induction h generalizing before with
  | eof pos => exact Array.push_eq_append
  | @token pos c more rest kind literal tokens hnext _ ih =>
    rw [scanFrom, hnext]
    dsimp only
    rw [scanFrom_skip]
    exact (ih _).trans (by simp)

/-- Every text can be cut: a token takes at least one character. -/
theorem exists_cut (pos : Position) (text : List Char) : ∃ tokens, Cut pos text tokens := by
  match text with
  | [] => exact ⟨_, .eof pos⟩
  | c :: cs =>
    have hextra := (Lexeme.next_stands c cs).extra_le
    rcases hnext : Lexeme.next c cs with ⟨kind, literal, extra⟩
    rw [hnext] at hextra
    have hlength : (cs.take extra).length = extra := List.length_take_of_le hextra
    obtain ⟨tokens, hrest⟩ := exists_cut (pos.afterAll (c :: cs.take extra)) (cs.drop extra)
    refine ⟨⟨kind, literal, pos⟩ :: tokens, ?_⟩
    have hcut : Cut pos (c :: (cs.take extra ++ cs.drop extra)) (⟨kind, literal, pos⟩ :: tokens) :=
      .token (by rw [List.take_append_drop, hnext, hlength]) hrest
    rwa [List.take_append_drop] at hcut
  termination_by text.length
  decreasing_by
    rw [List.length_drop, List.length_cons]
    omega

theorem scan_cut (source : String) : Cut .start source.toList (scan source).toList := by
  obtain ⟨tokens, h⟩ := exists_cut .start source.toList
  have hscan : (scan source).toList = tokens := by
    rw [scan, scanFrom_of_cut h]
    simp
  exact hscan ▸ h

/-! ### The cover -/

/-- Tokens that cover a text exactly, each at its place and written in one of its ways. -/
structure Covers (text : List Char) (tokens : List Token) : Prop where
  /-- The end of input stands once, at the end of the text. -/
  eof : ∃ before last, tokens = before ++ [last] ∧ last.kind = .eof ∧ last.pos.offset = text.length ∧
    ∀ t ∈ before, t.kind ≠ .eof
  first : tokens.head?.map (·.pos.offset) = some 0
  ordered : tokens.Pairwise (·.pos.offset < ·.pos.offset)
  /-- Lines and columns count the newlines before the token and the characters since the last one. -/
  placed : ∀ t ∈ tokens, t.pos.line = 1 + (text.take t.pos.offset).count '\n' ∧
    t.pos.col = 1 + ((text.take t.pos.offset).reverse.takeWhile (· != '\n')).length
  written : ∀ i (h : i + 1 < tokens.length), tokens[i].kind.Written tokens[i].literal
    ((text.drop tokens[i].pos.offset).take (tokens[i + 1].pos.offset - tokens[i].pos.offset))

namespace Cut
variable {pos : Position} {text : List Char} {tokens : List Token}

theorem head?_eq (h : Cut pos text tokens) : tokens.head?.map (·.pos) = some pos := by
  cases h <;> rfl

theorem token_written {c : Char} {more rest : List Char} {kind : TokenKind} {literal : String}
    (h : Lexeme.next c (more ++ rest) = ⟨kind, literal, more.length⟩) : kind.Written literal (c :: more) := by
  have hwritten := (Lexeme.next_stands c (more ++ rest)).written
  rwa [h, List.take_left] at hwritten

theorem offset_le (h : Cut pos text tokens) : ∀ t ∈ tokens, pos.offset ≤ t.pos.offset := by
  induction h with
  | eof pos => simp
  | @token pos c more rest kind literal tokens _ _ ih =>
    intro t ht
    rcases List.mem_cons.1 ht with rfl | ht
    · exact Nat.le_refl _
    · have hle := ih t ht
      rw [Position.offset_afterAll] at hle
      omega

theorem ordered (h : Cut pos text tokens) : tokens.Pairwise (·.pos.offset < ·.pos.offset) := by
  induction h with
  | eof pos => exact List.pairwise_singleton _ _
  | @token pos c more rest kind literal tokens _ hrest ih =>
    refine List.pairwise_cons.2 ⟨fun t ht => ?_, ih⟩
    have hle := hrest.offset_le t ht
    rw [Position.offset_afterAll, List.length_cons] at hle
    show pos.offset < t.pos.offset
    omega

theorem eof_last (h : Cut pos text tokens) :
    ∃ before, tokens = before ++ [⟨.eof, "", pos.afterAll text⟩] ∧ ∀ t ∈ before, t.kind ≠ .eof := by
  induction h with
  | eof pos => exact ⟨[], rfl, by simp⟩
  | @token pos c more rest kind literal tokens hnext _ ih =>
    obtain ⟨before, htokens, hbefore⟩ := ih
    have hwritten := token_written hnext
    refine ⟨⟨kind, literal, pos⟩ :: before, ?_, List.forall_mem_cons.2 ⟨?_, hbefore⟩⟩
    · rw [htokens, List.cons_append, ← List.cons_append (a := c), Position.afterAll_append]
    · rintro rfl
      exact hwritten

/-- Every token stands at the end of the text before it. -/
theorem placed (before : List Char) (h : Cut (.ending before) text tokens) :
    ∀ t ∈ tokens, t.pos = .ending ((before ++ text).take t.pos.offset) := by
  generalize hpos : Position.ending before = pos at h
  induction h generalizing before with
  | eof pos =>
    subst hpos
    simp [Position.ending]
  | @token pos c more rest kind literal tokens _ _ ih =>
    subst hpos
    intro t ht
    rcases List.mem_cons.1 ht with rfl | ht
    · show Position.ending before = .ending ((before ++ _).take before.length)
      rw [List.take_left]
    · have hrest := ih (before ++ c :: more) (Position.afterAll_ending _ _).symm t ht
      rwa [List.append_assoc, List.cons_append] at hrest

/-- A token is written in the text up to the next token. -/
theorem written (before : List Char) (h : Cut (.ending before) text tokens) (i : Nat) (hi : i + 1 < tokens.length) :
    tokens[i].kind.Written tokens[i].literal
      (((before ++ text).drop tokens[i].pos.offset).take (tokens[i + 1].pos.offset - tokens[i].pos.offset)) := by
  generalize hpos : Position.ending before = pos at h
  induction h generalizing before i with
  | eof pos => exact absurd hi (by simp)
  | @token pos c more rest kind literal tokens hnext hrest ih =>
    subst hpos
    cases i with
    | zero =>
      have hfirst : 0 < tokens.length := Nat.lt_of_succ_lt_succ hi
      have hsecond : tokens[0].pos = (Position.ending before).afterAll (c :: more) := by
        have hhead := hrest.head?_eq
        rw [List.head?_eq_getElem?, List.getElem?_eq_getElem hfirst] at hhead
        exact Option.some.inj hhead
      have hlength : tokens[0].pos.offset - before.length = (c :: more).length := by
        rw [hsecond, Position.offset_afterAll]
        exact Nat.add_sub_cancel_left _ _
      show kind.Written literal (((before ++ c :: (more ++ rest)).drop before.length).take (tokens[0].pos.offset - before.length))
      rw [List.drop_left, hlength, ← List.cons_append, List.take_left]
      exact token_written hnext
    | succ i =>
      have hlater := ih (before ++ c :: more) i (Nat.lt_of_succ_lt_succ hi) (Position.afterAll_ending _ _).symm
      rwa [List.append_assoc, List.cons_append] at hlater

theorem covers (h : Cut .start text tokens) : Covers text tokens where
  eof := by
    obtain ⟨before, htokens, hbefore⟩ := h.eof_last
    refine ⟨before, _, htokens, rfl, ?_, hbefore⟩
    show (Position.start.afterAll text).offset = text.length
    rw [Position.offset_afterAll]
    exact Nat.zero_add _
  first := by
    have hhead := congrArg (Option.map Position.offset) h.head?_eq
    rwa [Option.map_map] at hhead
  ordered := h.ordered
  placed t ht := by
    have hpos := placed [] h t ht
    rw [List.nil_append] at hpos
    exact ⟨congrArg Position.line hpos, congrArg Position.col hpos⟩
  written := written [] h

end Cut

/-- The tokens of a source cover it. -/
theorem scan_covers (source : String) : Covers source.toList (scan source).toList :=
  (scan_cut source).covers

end Token
end TinyScript
