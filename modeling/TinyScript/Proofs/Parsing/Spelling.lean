import TinyScript.Parsing.Program
import TinyScript.Proofs.Parsing.Layering
import TinyScript.Proofs.Parsing.Pointing
import TinyScript.Proofs.Parsing.Termination
import TinyScript.Proofs.Token.Covering

/-!
# The words that a parser passes

`Spells` says which words stand between the place where a parser begins and the one where it ends, with
what holds of its result. A comment is the last token on its line (`Token.Cut.lineEnds`), so the line end
that is expected after a comment can be passed unseen.
-/

namespace TinyScript

/-! ### Comments -/

/-- A token that goes to the end of its line has the end of a line after it. -/
def Token.LineEndAfter (t u : Token) : Prop :=
  t.kind = .comment → u.kind = .nl ∨ u.kind = .eof

theorem Lexeme.kind_ne_comment_ofWord (c : Char) (cs : List Char) : (ofWord c cs).kind ≠ .comment := by
  unfold ofWord
  dsimp only
  split
  · next keyword hk =>
    unfold TokenKind.ofKeyword? at hk
    split at hk <;> cases hk <;> nofun
  · nofun

theorem Lexeme.kind_ne_comment_ofString (cs : List Char) : (ofString cs).kind ≠ .comment := by
  unfold ofString
  dsimp only
  split
  · split <;> nofun
  · nofun

theorem Lexeme.kind_ne_comment_either {cs : List Char} {second : Char} {long short : TokenKind}
    (hlong : long ≠ .comment) (hshort : short ≠ .comment) :
    (either cs second long short).kind ≠ .comment := by
  unfold either
  split
  · exact hlong
  · exact hshort

/-- Only the end of the line or of the text can follow a comment. -/
theorem Lexeme.next_comment {c : Char} {cs : List Char} (h : (next c cs).kind = .comment) :
    cs.drop (next c cs).extra = [] ∨ ∃ tail, cs.drop (next c cs).extra = '\n' :: tail := by
  unfold next at h ⊢
  split at h
  case h_7 =>
    split at h
    · next hslash =>
      have hrest : cs.drop (cs.takeWhile (· != '\n')).length = cs.dropWhile (· != '\n') := by
        have happend := List.takeWhile_append_dropWhile (p := (· != '\n')) (l := cs)
        calc cs.drop (cs.takeWhile (· != '\n')).length
            = (cs.takeWhile (· != '\n') ++ cs.dropWhile (· != '\n')).drop
                (cs.takeWhile (· != '\n')).length := by rw [happend]
          _ = cs.dropWhile (· != '\n') := List.drop_left
      have hhead := List.head?_dropWhile_not (· != '\n') cs
      simp only [hslash, if_true, run, hrest]
      cases hline : cs.dropWhile (· != '\n') with
      | nil => exact .inl rfl
      | cons d tail =>
        rw [hline] at hhead
        have hd : d = '\n' := by simpa using hhead
        exact .inr ⟨tail, by rw [hd]⟩
    · cases h
  case h_3 | h_6 | h_10 | h_11 | h_12 => exact absurd h (kind_ne_comment_either (by decide) (by decide))
  case h_20 => split at h <;> cases h
  case h_21 => exact absurd h (kind_ne_comment_ofString _)
  case h_22 =>
    split at h
    · exact absurd h (kind_ne_comment_ofWord _ _)
    split at h <;> cases h
  all_goals cases h

/-- In the tokens of a source that are not illegal, a comment is the last one on its line. -/
theorem Token.Cut.lineEnds {pos : Position} {text : List Char} {tokens : List Token}
    (h : Cut pos text tokens) : (tokens.filter (·.kind != .illegal)).IsChain LineEndAfter := by
  induction h with
  | eof pos => exact .singleton _
  | @token pos c more rest kind literal tokens hnext hrest ih =>
    by_cases hillegal : kind = .illegal
    · rw [List.filter_cons_of_neg (by simp [hillegal])]
      exact ih
    rw [List.filter_cons_of_pos (by simpa using hillegal)]
    cases hfilter : tokens.filter (·.kind != .illegal) with
    | nil => exact .singleton _
    | cons u us =>
      refine List.isChain_cons_cons.2 ⟨fun hcomment => ?_, hfilter ▸ ih⟩
      have hkind : (Lexeme.next c (more ++ rest)).kind = .comment := by
        rw [hnext]
        exact hcomment
      have hline := Lexeme.next_comment hkind
      rw [hnext, List.drop_left] at hline
      rcases hline with rfl | ⟨tail, rfl⟩
      · cases hrest
        obtain ⟨rfl, -⟩ : _ = u ∧ _ = us := List.cons.inj hfilter
        exact .inr rfl
      · cases hrest with
        | @token _ _ _ _ kind _ _ hnl _ =>
          obtain rfl : TokenKind.nl = kind := congrArg Lexeme.kind hnl
          obtain ⟨rfl, -⟩ : _ = u ∧ _ = us := List.cons.inj hfilter
          exact .inl rfl

namespace Parsing

namespace State

/-- A place in tokens in which every comment ends its line. -/
structure Lexed (s : State) : Prop extends InRange s where
  lineEnds : s.tokens.toList.IsChain Token.LineEndAfter

/-- The words of the tokens from one place up to another. -/
def wordsTo (s t : State) : List ExprWord :=
  (s.tokens.extract s.pos t.pos).toList.filterMap Token.word?

/-- A later place in the same tokens, with the same constructs open and the same declared. -/
structure Passes (s t : State) : Prop where
  input : s.SameInput t
  declared : t.declared = s.declared
  handlers : t.handlers = s.handlers
  leads : s.Leads t
  lexed : t.Lexed

variable {s t u : State}

theorem Lexed.passesTo (hs : s.Lexed) (h : s.SameInput t) (hdeclared : t.declared = s.declared)
    (hhandlers : t.handlers = s.handlers) (hleads : s.Leads t) : s.Passes t := by
  refine ⟨h, hdeclared, hhandlers, hleads, hleads.inRange hs.toInRange, ?_⟩
  rw [h.tokens]
  exact hs.lineEnds

theorem Lexed.passesAlike (hs : s.Lexed) (h : s.Alike t) (hleads : s.Leads t) : s.Passes t :=
  hs.passesTo h.sameInput (congrArg State.declared h.site :) (congrArg State.handlers h.site :) hleads

theorem Lexed.passes (hs : s.Lexed) : s.Passes s := hs.passesAlike (.refl s) hs.toInRange.refl

theorem Passes.trans (h : s.Passes t) (h' : t.Passes u) : s.Passes u where
  input := h.input.trans h'.input
  declared := h'.declared.trans h.declared
  handlers := h'.handlers.trans h.handlers
  leads := h.leads.trans h'.leads
  lexed := h'.lexed

@[simp] theorem wordsTo_self (s : State) : s.wordsTo s = [] := by
  simp [wordsTo]

theorem wordsTo_congr {s' t' : State} (htokens : s'.tokens = s.tokens) (hs : s'.pos = s.pos)
    (ht : t'.pos = t.pos) : s'.wordsTo t' = s.wordsTo t := by
  unfold wordsTo
  rw [htokens, hs, ht]

theorem Passes.wordsTo_trans (h : s.Passes t) (h' : t.Passes u) :
    s.wordsTo u = s.wordsTo t ++ t.wordsTo u := by
  have hsplit : s.tokens.extract s.pos u.pos =
      s.tokens.extract s.pos t.pos ++ s.tokens.extract t.pos u.pos := by
    rw [Array.extract_append_extract, Nat.min_eq_left h.leads.mono, Nat.max_eq_right h'.leads.mono]
  unfold wordsTo
  rw [hsplit, h.input.tokens, Array.toList_append, List.filterMap_append]

/-! ### Words of a step -/

theorem Lexed.wordsTo_advanceOne (hs : s.Lexed) : s.wordsTo s.advanceOne = s.cur.word?.toList := by
  by_cases hlt : s.pos < s.tokens.size
  · have hcur : s.cur = s.tokens[s.pos] := by
      unfold cur tokenAt
      rw [Array.getElem?_eq_getElem hlt]
      rfl
    have hone : s.tokens.extract s.pos (s.pos + 1) = #[s.tokens[s.pos]] := by
      refine Array.ext (by simp; omega) fun i _ hi => ?_
      obtain rfl : i = 0 := Nat.lt_one_iff.1 hi
      simp
    unfold wordsTo advanceOne
    rw [if_pos hlt, hcur]
    show (s.tokens.extract s.pos (s.pos + 1)).toList.filterMap Token.word? = _
    rw [hone]
    show [s.tokens[s.pos]].filterMap Token.word? = _
    cases hword : s.tokens[s.pos].word? with
    | none => exact List.filterMap_cons_none hword
    | some w => exact List.filterMap_cons_some hword
  · have heof : s.cur.kind = .eof := by
      by_contra hne
      exact hlt (hs.toInRange.lt_size hne)
    have hword : s.cur.word? = none := by
      unfold Token.word?
      rw [heof]
      rfl
    rw [advanceOne, if_neg hlt, wordsTo_self, hword]
    rfl

theorem Lexed.passes_advanceOne (hs : s.Lexed) : s.Passes s.advanceOne :=
  hs.passesAlike (alike_advanceOne s) (leads_advanceOne hs.toInRange)

theorem Lexed.passes_skipBlank (hs : s.Lexed) : s.Passes s.skipBlank :=
  hs.passesAlike (alike_skipBlank s) (leads_skipBlank hs.toInRange)

theorem Lexed.passes_advance (hs : s.Lexed) : s.Passes s.advance :=
  hs.passesAlike (alike_advance s) (leads_advance hs.toInRange)

theorem Lexed.wordsTo_skipBlank (hs : s.Lexed) : s.wordsTo s.skipBlank = [] := by
  unfold skipBlank
  split
  · next hws =>
    rw [hs.wordsTo_advanceOne, Token.word?, hws]
    rfl
  · exact wordsTo_self s

theorem Lexed.wordsTo_advance (hs : s.Lexed) : s.wordsTo s.advance = s.cur.word?.toList := by
  have hone := hs.passes_advanceOne
  unfold advance
  dsimp only
  split
  · exact hs.wordsTo_advanceOne
  · rw [hone.wordsTo_trans hone.lexed.passes_skipBlank, hone.lexed.wordsTo_skipBlank, List.append_nil]
    exact hs.wordsTo_advanceOne

theorem Lexed.pushSpacing (hs : s.Lexed) (spaced : Bool) : (s.pushSpacing spaced).Lexed :=
  ⟨⟨hs.pos_le, hs.eof⟩, hs.lineEnds⟩

/-- What is read in a construct and the end of the construct pass no more words. -/
theorem Passes.popSpacing {spaced : Bool} (hs : s.Lexed) (h : (s.pushSpacing spaced).Passes t) :
    s.Passes t.popSpacing ∧ s.wordsTo t.popSpacing = (s.pushSpacing spaced).wordsTo t := by
  have hclosed : ({ t with spacing := t.spacing.tail } : State).Lexed :=
    ⟨⟨h.lexed.pos_le, h.lexed.eof⟩, h.lexed.lineEnds⟩
  have hleads : s.Leads t := ⟨h.leads.tokens, h.leads.eof, h.leads.mono, h.leads.bound⟩
  have halike := alike_popSpacing t
  have hpops : s.Passes t.popSpacing :=
    hs.passesTo h.input.popSpacing ((congrArg State.declared halike.site :).trans h.declared)
      ((congrArg State.handlers halike.site :).trans h.handlers) (hleads.trans (leads_popSpacing h.lexed.toInRange))
  refine ⟨hpops, ?_⟩
  unfold State.popSpacing
  dsimp only
  split
  · next hblank =>
    have hws : ({ t with spacing := t.spacing.tail } : State).cur.kind = .ws := by
      simp only [Bool.and_eq_true, decide_eq_true_eq] at hblank
      exact hblank.2
    have hpass : s.Passes { t with spacing := t.spacing.tail } := by
      refine hs.passesTo ⟨h.input.tokens, h.input.eof, ?_, h.input.funcs⟩ h.declared h.handlers
        ⟨hleads.tokens, hleads.eof, hleads.mono, hleads.bound⟩
      show t.spacing.tail = s.spacing
      rw [h.input.spacing]
      rfl
    rw [hpass.wordsTo_trans hclosed.passes_advance, hclosed.wordsTo_advance, Token.word?, hws]
    exact List.append_nil _
  · exact wordsTo_congr rfl rfl rfl

end State

/-! ### The words that a parser passes -/

section
variable {α β γ : Type} {s t : State} {Q Q' : α → List ExprWord → State → Prop} {R : β → List ExprWord → State → Prop}

/-- From a state the parser goes to a later place; what holds of its result and of the words in between
is `Q`. -/
structure Spells (s : State) (m : Parse α) (Q : α → List ExprWord → State → Prop) : Prop where
  passes : s.Passes (m.run s).2
  result : Q (m.run s).1 (s.wordsTo (m.run s).2) (m.run s).2

/-- The same of an attempt, if it has a result. -/
abbrev SpellsTry (s : State) (m : Attempt α) (Q : α → List ExprWord → State → Prop) : Prop :=
  Spells s m.run fun r ws t => ∀ a, r = some a → Q a ws t

namespace Spells
variable {m : Parse α}

theorem pure {a : α} (hs : s.Lexed) (h : Q a [] s) : Spells s (pure a) Q :=
  ⟨hs.passes, (State.wordsTo_self s).symm ▸ h⟩

theorem bind {f : α → Parse β} (hm : Spells s m Q)
    (hf : ∀ a t, s.Passes t → Q a (s.wordsTo t) t →
      Spells t (f a) fun b ws u => R b (s.wordsTo t ++ ws) u) : Spells s (m >>= f) R := by
  obtain ⟨hpasses, hresult⟩ := hm
  obtain ⟨hpasses', hresult'⟩ := hf _ _ hpasses hresult
  rw [← hpasses.wordsTo_trans hpasses'] at hresult'
  exact ⟨hpasses.trans hpasses', hresult'⟩

theorem weaken (hm : Spells s m Q) (h : ∀ a ws t, s.Passes t → Q a ws t → Q' a ws t) : Spells s m Q' :=
  ⟨hm.passes, h _ _ _ hm.passes hm.result⟩

/-- A step that moves on, and then the rest. -/
theorem step {f : State → State} {m : PUnit → Parse β} {ws : List ExprWord} (hpasses : s.Passes (f s))
    (hwords : s.wordsTo (f s) = ws) (h : Spells (f s) (m ⟨⟩) fun b vs u => R b (ws ++ vs) u) :
    Spells s (modify f >>= m) R := by
  subst hwords
  exact bind (Q := fun _ ws' t => ws' = s.wordsTo (f s) ∧ t = f s) ⟨hpasses, rfl, rfl⟩
    fun _ t _ ht => ht.2 ▸ h

theorem ite {c : Prop} [Decidable c] {m n : Parse α} (hm : c → Spells s m Q) (hn : ¬ c → Spells s n Q) :
    Spells s (if c then m else n) Q := by
  split
  · next h => exact hm h
  · next h => exact hn h

theorem look {g : State → γ} {f : γ → Parse β} (h : Spells s (f (g s)) R) :
    Spells s ((do return g (← get)) >>= f) R :=
  ⟨h.passes, h.result⟩

theorem reportAt (hs : s.Lexed) (token : Token) (problem : Problem) :
    Spells s (reportAt token problem) fun _ ws t => ws = [] ∧ t.cur = s.cur :=
  ⟨hs.passesTo (s.sameInput_report _ _) rfl rfl ⟨rfl, rfl, Nat.le_refl _, hs.pos_le⟩, State.wordsTo_self s, rfl⟩

theorem report (hs : s.Lexed) (problem : Problem) :
    Spells s (report problem) fun _ ws t => ws = [] ∧ t.cur = s.cur :=
  ⟨hs.passesTo (s.sameInput_report _ _) rfl rfl ⟨rfl, rfl, Nat.le_refl _, hs.pos_le⟩, State.wordsTo_self s, rfl⟩

theorem expect (hs : s.Lexed) (expected : TokenKind) :
    Spells s (expect expected) fun b ws t =>
      ws = [] ∧ t.cur = s.cur ∧ (b = true → s.cur.kind = expected ∧ t = s) := by
  refine look (g := fun s => s.cur.kind) (.ite (fun h => pure hs ⟨rfl, rfl, fun _ => ⟨h, rfl⟩⟩) fun _ => ?_)
  refine (report hs _).bind fun _ t ht hstay => ?_
  refine pure ht.lexed ⟨?_, hstay.2, nofun⟩
  rw [hstay.1]
  rfl

end Spells

/-- A parser without a result that passes no words. -/
def Silent (m : Parse PUnit) : Prop :=
  ∀ s : State, s.Lexed → Spells s m fun _ ws _ => ws = []

namespace Silent

theorem pure : Silent (Pure.pure ⟨⟩) := fun _ hs => .pure hs rfl

theorem reportAt (token : Token) (problem : Problem) : Silent (reportAt token problem) :=
  fun _ hs => (Spells.reportAt hs token problem).weaken fun _ _ _ _ h => h.1

theorem report (problem : Problem) : Silent (report problem) :=
  fun _ hs => (Spells.report hs problem).weaken fun _ _ _ _ h => h.1

theorem andThen {m : Parse PUnit} {f : PUnit → Parse β} (hm : Silent m) (hs : s.Lexed)
    (h : ∀ t, s.Passes t → Spells t (f ⟨⟩) R) : Spells s (m >>= f) R := by
  refine (hm s hs).bind fun _ t ht hws => ?_
  rw [hws]
  exact h t ht

theorem ite {c : Prop} [Decidable c] {m n : Parse PUnit} (hm : Silent m) (hn : Silent n) :
    Silent (if c then m else n) := by
  split
  · exact hm
  · exact hn

theorem forM {f : γ → Parse PUnit} (hf : ∀ c, Silent (f c)) (l : List γ) : Silent (l.forM f) := by
  induction l with
  | nil => exact pure
  | cons c l ih =>
    exact fun s hs => (hf c).andThen (f := fun _ => l.forM f) hs fun t ht => ih t ht.lexed

end Silent

namespace SpellsTry
variable {m : Attempt α}

theorem pure {a : α} (hs : s.Lexed) (h : Q a [] s) : SpellsTry s (pure a) Q :=
  Spells.pure hs fun _ ha => Option.some.inj ha ▸ h

theorem failure (hs : s.Lexed) : SpellsTry s (failure : Attempt α) Q :=
  Spells.pure hs nofun

theorem bind {f : α → Attempt β} (hm : SpellsTry s m Q)
    (hf : ∀ a t, s.Passes t → Q a (s.wordsTo t) t →
      SpellsTry t (f a) fun b ws u => R b (s.wordsTo t ++ ws) u) : SpellsTry s (m >>= f) R := by
  unfold SpellsTry
  rw [OptionT.run_bind]
  refine Spells.bind hm fun r t ht hr => ?_
  cases r with
  | none => exact Spells.pure ht.lexed nofun
  | some a => exact hf a t ht (hr a rfl)

theorem weaken (hm : SpellsTry s m Q) (h : ∀ a ws t, s.Passes t → Q a ws t → Q' a ws t) : SpellsTry s m Q' :=
  Spells.weaken hm fun _ ws t ht hr a ha => h a ws t ht (hr a ha)

/-- Goes on after a parser that always has a result. -/
theorem after {m : Parse α} {f : α → Attempt β} (hm : Spells s m Q)
    (hf : ∀ a t, s.Passes t → Q a (s.wordsTo t) t →
      SpellsTry t (f a) fun b ws u => R b (s.wordsTo t ++ ws) u) : SpellsTry s (liftM m >>= f) R :=
  Spells.bind (f := fun a => (f a).run) hm hf

theorem look {g : State → γ} {f : γ → Attempt β} (h : SpellsTry s (f (g s)) R) :
    SpellsTry s (liftM (do return g (← get) : Parse γ) >>= f) R :=
  ⟨h.passes, h.result⟩

theorem get {f : State → Attempt β} (h : SpellsTry s (f s) R) :
    SpellsTry s (liftM (MonadState.get : Parse State) >>= f) R :=
  ⟨h.passes, h.result⟩

theorem ite {c : Prop} [Decidable c] {m n : Attempt α} (hm : c → SpellsTry s m Q)
    (hn : ¬ c → SpellsTry s n Q) : SpellsTry s (if c then m else n) Q := by
  split
  · next h => exact hm h
  · next h => exact hn h

/-- Goes on past the current token. -/
theorem advance {f : PUnit → Attempt β} (hs : s.Lexed)
    (h : SpellsTry s.advance (f ⟨⟩) fun b ws u => R b (s.cur.word?.toList ++ ws) u) :
    SpellsTry s (liftM advance >>= f) R :=
  Spells.step (m := fun _ => (f ⟨⟩).run) (R := fun r ws t => ∀ b, r = some b → R b ws t)
    hs.passes_advance hs.wordsTo_advance h

theorem advanceOne {f : PUnit → Attempt β} (hs : s.Lexed)
    (h : SpellsTry s.advanceOne (f ⟨⟩) fun b ws u => R b (s.cur.word?.toList ++ ws) u) :
    SpellsTry s (liftM advanceOne >>= f) R :=
  Spells.step (m := fun _ => (f ⟨⟩).run) (R := fun r ws t => ∀ b, r = some b → R b ws t)
    hs.passes_advanceOne hs.wordsTo_advanceOne h

theorem failAt (hs : s.Lexed) (token : Token) (problem : Problem) :
    SpellsTry s (failAt token problem : Attempt α) Q :=
  after (Spells.reportAt hs token problem) fun _ _ ht _ => failure ht.lexed

theorem fail (hs : s.Lexed) (problem : Problem) : SpellsTry s (fail problem : Attempt α) Q :=
  after (Spells.report hs problem) fun _ _ ht _ => failure ht.lexed

/-- Goes on past punctuation. -/
theorem pass {f : PUnit → Attempt β} (hs : s.Lexed) (hword : s.cur.word? = none)
    (h : SpellsTry s.advance (f ⟨⟩) R) : SpellsTry s (liftM Parsing.advance >>= f) R :=
  advance hs (by rw [hword]; exact h)

theorem passOne {f : PUnit → Attempt β} (hs : s.Lexed) (hword : s.cur.word? = none)
    (h : SpellsTry s.advanceOne (f ⟨⟩) R) : SpellsTry s (liftM Parsing.advanceOne >>= f) R :=
  advanceOne hs (by rw [hword]; exact h)

/-- What follows is only reached if a condition does not hold. -/
theorem ifFail {c : Prop} [Decidable c] {fails : Attempt γ} {rest : Attempt β}
    (hfails : SpellsTry s fails fun _ _ _ => False) (h : ¬ c → SpellsTry s rest R) :
    SpellsTry s (if c then fails >>= fun _ => rest else rest) R :=
  ite (fun _ => hfails.bind fun _ _ _ hfalse => hfalse.elim) h

/-- What follows is only reached if a condition holds. -/
theorem unlessFail {c : Prop} [Decidable c] {fails : Attempt γ} {rest : Attempt β}
    (hfails : SpellsTry s fails fun _ _ _ => False) (h : c → SpellsTry s rest R) :
    SpellsTry s (if c then rest else fails >>= fun _ => rest) R :=
  ite h fun _ => hfails.bind fun _ _ _ hfalse => hfalse.elim

/-- What follows is only reached before a token of a kind. -/
theorem require {f : PUnit → Attempt β} (hs : s.Lexed) (expected : TokenKind)
    (h : s.cur.kind = expected → SpellsTry s (f ⟨⟩) R) : SpellsTry s (require expected >>= f) R := by
  refine bind (Q := fun _ ws t => ws = [] ∧ s.cur.kind = expected ∧ t = s) ?_ ?_
  · refine after (Spells.expect hs expected) fun b t ht hb => ?_
    obtain ⟨hws, -, htrue⟩ := hb
    rw [hws]
    cases b with
    | true => exact pure ht.lexed ⟨rfl, htrue rfl⟩
    | false => exact failure ht.lexed
  · rintro _ t _ ⟨hws, hkind, rfl⟩
    rw [hws]
    exact h hkind

theorem withSpacing {spaced : Bool} (hs : s.Lexed)
    (hm : SpellsTry (s.pushSpacing spaced) m fun a ws t => Q a ws t.popSpacing) :
    SpellsTry s (withSpacing spaced m) Q := by
  obtain ⟨hpasses, hresult⟩ := hm
  obtain ⟨hpops, hwords⟩ := hpasses.popSpacing hs
  refine ⟨hpops, fun a ha => ?_⟩
  have hrun := hresult a ha
  rw [← hwords] at hrun
  exact hrun

/-- A loop of checks, each of which ends the attempt or does nothing. -/
theorem forIn {f : γ → PUnit → Attempt (ForInStep PUnit)} (l : List γ) (hs : s.Lexed)
    (hf : ∀ c, SpellsTry s (f c ⟨⟩) fun _ ws t => ws = [] ∧ t = s) :
    SpellsTry s (forIn l PUnit.unit f) fun _ ws t => ws = [] ∧ t = s := by
  induction l with
  | nil => exact pure hs ⟨rfl, rfl⟩
  | cons c l ih =>
    rw [List.forIn_cons]
    refine (hf c).bind ?_
    rintro r t - ⟨hws, rfl⟩
    rw [hws]
    cases r with
    | done => exact pure hs ⟨rfl, rfl⟩
    | yield => exact ih

end SpellsTry

end

/-- Tokens of a kind that stands for no word. -/
theorem word?_eq_none {t : Token} {k : TokenKind} (h : t.kind = k)
    (hk : ∀ literal pos, Token.word? ⟨k, literal, pos⟩ = none) : t.word? = none := by
  obtain ⟨kind, literal, pos⟩ := t
  obtain rfl : kind = k := h
  exact hk literal pos

end Parsing

end TinyScript
