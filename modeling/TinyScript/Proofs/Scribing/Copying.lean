import TinyScript.Proofs.Scribing.Strokes
import TinyScript.Proofs.Parsing.Progress

/-!
# A scribe beside the parser

While a parser goes on from token to token, a scribe copies the tokens it has passed. `On` says which page
the scribe is at then. What a parser does to that is stated for parsers that end without problems, and
whose attempts have a result then (`Gets`).
-/

namespace TinyScript

namespace Scopes

/-- The names that are declared in open scopes. -/
def names (ss : Scopes) : List String :=
  ss.flatMap fun s => s.vars.toList.map (·.var.name)

theorem names_asRead (ss : Scopes) : ss.asRead.names = ss.names := by
  simp [names, asRead, Scope.asRead, List.flatMap_map, Function.comp_def]

theorem mem_names_of_ty? {ss : Scopes} {name : String} {ty : Ty} (h : ss.ty? name = some ty) :
    name ∈ ss.names := by
  obtain ⟨s, hs, hty⟩ := List.exists_of_findSome?_eq_some h
  obtain ⟨v, hv, -⟩ := Option.map_eq_some_iff.1 hty
  have hname : v.var.name = name := by simpa using Array.find?_some hv
  exact List.mem_flatMap.2 ⟨s, hs, List.mem_map.2 ⟨v, by simpa using Array.mem_of_find?_eq_some hv, hname⟩⟩

theorem names_read? {ss ss' : Scopes} {name : String} {v : Var} (h : ss.read? name = some (v, ss')) :
    name ∈ ss.names ∧ v.name = name ∧ ss'.names = ss.names := by
  obtain ⟨-, hname, hty, hread⟩ := of_read? h
  refine ⟨mem_names_of_ty? hty, hname, ?_⟩
  rw [← names_asRead ss', hread, names_asRead]

theorem names_declare (ss : Scopes) (v : Var) (used : Bool) :
    (ss.declare v used).names ⊆ v.name :: ss.names := by
  unfold declare
  split
  · exact List.subset_cons_self _ _
  · cases ss with
    | nil => exact List.nil_subset _
    | cons s ss =>
      intro name hname
      simp only [names, List.flatMap_cons, Array.toList_push, List.map_append, List.map_cons, List.map_nil,
        List.mem_append, List.mem_cons, List.not_mem_nil, or_false] at hname ⊢
      rcases hname with (h | h) | h
      · exact .inr (.inl h)
      · exact .inl h
      · exact .inr (.inr h)

theorem names_tail (ss : Scopes) : names ss.tail ⊆ ss.names := by
  cases ss with
  | nil => exact List.nil_subset _
  | cons s ss => exact List.subset_append_right _ _

end Scopes

namespace Layout

/-! ### Pages -/

namespace Page

/-- Goes on in the same row. -/
def add (p : Page) (words : List Word) (scribe : Scribe) : Page :=
  { p with line := p.line ++ words, scribe }

/-- Finishes the row. -/
def newRow (p : Page) (words : List Word) (scribe : Scribe) : Page :=
  { rows := p.rows ++ [⟨p.line ++ words, p.scribe.kind⟩], scribe }

variable {p : Page} {words words' : List Word} {c c' : Scribe}

theorem write_eq_add (h : c.place ≠ .start) : p.write words c = p.add words c :=
  if_neg h

theorem write_eq_newRow (h : c.place = .start) : p.write words c = p.newRow words c :=
  if_pos h

@[simp] theorem add_scribe : (p.add words c).scribe = c := rfl

@[simp] theorem write_scribe : (p.write words c).scribe = c := by
  unfold write
  split <;> rfl

@[simp] theorem add_add : (p.add words c).add words' c' = p.add (words ++ words') c' := by
  simp [add]

end Page

end Layout

namespace Parsing
open Layout

/-! ### Copies -/

/-- The tokens of a source, and the page on which those from `start` on are copied. -/
structure Draft where
  tokens : Array Token
  /-- The end of input, which is also read beyond the last token. -/
  eof : Token
  eof_kind : eof.kind = .eof
  eof_last : ∀ i, ((tokens[i]?).getD eof).kind = .eof → ((tokens[i + 1]?).getD eof).kind = .eof
  /-- A blank goes up to the next token that is none. -/
  blank_last : ∀ i, ((tokens[i]?).getD eof).kind = .ws → ((tokens[i + 1]?).getD eof).kind ≠ .ws
  /-- A comment goes up to the end of its line. -/
  comment_last : ∀ i, ((tokens[i]?).getD eof).kind = .comment →
    ((tokens[i + 1]?).getD eof).kind = .nl ∨ ((tokens[i + 1]?).getD eof).kind = .eof
  prelude : Prelude
  /-- The functions that the parser knows. -/
  known : List Signature
  /-- The names of the functions whose bodies it has read. -/
  bodies : List String
  /-- The functions that the scribe knows. -/
  fn : String → Bool
  start : Nat
  first : Page

namespace Draft

/-- The token at an index. -/
def tokenAt (d : Draft) (i : Nat) : Token :=
  (d.tokens[i]?).getD d.eof

/-- Whether a blank comes before an index. -/
def afterBlank (d : Draft) (i : Nat) : Bool :=
  (if i = 0 then none else some (d.tokenAt (i - 1)).kind) = some .ws

/-- The index of the next token that is no blank. -/
def next (d : Draft) (i : Nat) : Nat :=
  if (d.tokenAt (i + 1)).kind = .ws then i + 2 else i + 1

/-- A function with the name starts at the index. -/
def Heads (d : Draft) (i : Nat) (name : String) : Prop :=
  (d.tokenAt i).kind = .func ∧ (d.tokenAt (d.next i)).literal = name

end Draft

/-- Whether a blank comes before the current token. -/
def State.afterBlank (s : State) : Bool :=
  s.prev?.map (·.kind) = some .ws

/-- The page on which the tokens up to an index are copied. -/
inductive Copied (d : Draft) : Nat → Page → Prop
  | start : Copied d d.start d.first
  | blank {i : Nat} {p : Page} (h : Copied d i p) (hk : (d.tokenAt i).kind = .ws) : Copied d (i + 1) p
  | token {i : Nat} {p : Page} {words : List Word} {c : Scribe} (h : Copied d i p)
      (heof : (d.tokenAt i).kind ≠ .eof) (hk : (d.tokenAt i).kind ≠ .ws)
      (hstroke : stroke d.fn p.scribe (d.tokenAt i).kind (d.tokenAt i).literal (d.afterBlank i) = some (words, c)) :
      Copied d (i + 1) (p.write words c)

/-- The parser is at index `n` or behind it, and what is declared is in `declared`. -/
structure Within (d : Draft) (spacing : List Bool) (n : Nat) (declared : List String) (s : State) : Prop where
  tokens : s.tokens = d.tokens
  eof : s.eof = d.eof
  prelude : s.prelude = d.prelude
  known : s.funcs = d.known
  spacing : s.spacing = spacing
  lower : n ≤ s.pos
  upper : s.pos ≤ d.tokens.size
  scopes : s.scopes.names ⊆ declared
  bodies : s.declared.toList.map (·.signature.name) = d.bodies

/-- The tokens before the current one are copied on the page. -/
structure On (d : Draft) (spacing : List Bool) (n : Nat) (p : Page) (s : State) : Prop extends
    Within d spacing n p.scribe.declared s where
  copied : Copied d s.pos p

variable {d : Draft} {spacing : List Bool} {n m : Nat} {p : Page} {s t : State} {w : List Word}
  {c : Scribe} {declared : List String}

namespace Within

theorem inRange (h : Within d spacing n declared s) : s.InRange :=
  ⟨h.tokens ▸ h.upper, h.eof ▸ d.eof_kind⟩

theorem tokenAt (h : Within d spacing n declared s) (i : Nat) : s.tokenAt i = d.tokenAt i := by
  rw [State.tokenAt, h.tokens, h.eof]
  rfl

theorem cur (h : Within d spacing n declared s) : s.cur = d.tokenAt s.pos :=
  h.tokenAt s.pos

theorem afterBlank (h : Within d spacing n declared s) : s.afterBlank = d.afterBlank s.pos := by
  unfold State.afterBlank State.prev? Draft.afterBlank
  rw [h.tokenAt]
  split <;> rfl

theorem isSpaced (h : Within d spacing n declared s) : s.isSpaced = spacing.headD false := by
  rw [State.isSpaced, h.spacing]

theorem lt_size (h : Within d spacing n declared s) (heof : s.cur.kind ≠ .eof) : s.pos < d.tokens.size :=
  h.tokens ▸ h.inRange.lt_size heof

theorem mono (h : Within d spacing n declared s) (hm : m ≤ n) : Within d spacing m declared s :=
  { h with lower := Nat.le_trans hm h.lower }

theorem weaken {declared' : List String} (h : Within d spacing n declared s) (hsub : declared ⊆ declared') :
    Within d spacing n declared' s :=
  { h with scopes := List.Subset.trans h.scopes hsub }

theorem advanceOne (h : Within d spacing n declared s) : Within d spacing n declared s.advanceOne := by
  have hlower := h.lower
  unfold State.advanceOne
  split
  · next hlt => exact { h with lower := Nat.le_succ_of_le h.lower, upper := h.tokens ▸ hlt }
  · exact h

theorem pos_advanceOne (h : Within d spacing n declared s) (heof : s.cur.kind ≠ .eof) :
    s.advanceOne.pos = s.pos + 1 := by
  rw [State.advanceOne, if_pos (h.tokens ▸ h.lt_size heof)]

theorem advanceOne_lt (h : Within d spacing n declared s) (heof : s.cur.kind ≠ .eof) :
    Within d spacing (n + 1) declared s.advanceOne := by
  refine { h.advanceOne with lower := ?_ }
  rw [h.pos_advanceOne heof]
  exact Nat.succ_le_succ h.lower

theorem skipBlank (h : Within d spacing n declared s) : Within d spacing n declared s.skipBlank := by
  unfold State.skipBlank
  split
  · exact h.advanceOne
  · exact h

theorem advance (h : Within d spacing n declared s) : Within d spacing n declared s.advance := by
  unfold State.advance
  dsimp only
  split
  · exact h.advanceOne
  · exact h.advanceOne.skipBlank

theorem advance_lt (h : Within d spacing n declared s) (heof : s.cur.kind ≠ .eof) :
    Within d spacing (n + 1) declared s.advance := by
  unfold State.advance
  dsimp only
  split
  · exact h.advanceOne_lt heof
  · exact (h.advanceOne_lt heof).skipBlank

/-- Right after a token there is no blank before. -/
theorem afterBlank_advanceOne (h : Within d spacing n declared s) (heof : s.cur.kind ≠ .eof)
    (hk : s.cur.kind ≠ .ws) : s.advanceOne.afterBlank = false := by
  rw [h.advanceOne.afterBlank, h.pos_advanceOne heof, Draft.afterBlank, if_neg (Nat.succ_ne_zero _),
    Nat.add_sub_cancel, ← h.cur]
  simpa using hk

theorem afterBlank_of_ws (h : Within d spacing n declared s) (hk : s.cur.kind = .ws) :
    s.advanceOne.afterBlank = true := by
  have heof : s.cur.kind ≠ .eof := by rw [hk]; nofun
  rw [h.advanceOne.afterBlank, h.pos_advanceOne heof, Draft.afterBlank, if_neg (Nat.succ_ne_zero _),
    Nat.add_sub_cancel, ← h.cur, hk]
  rfl

theorem advance_of_spaced (h : Within d spacing n declared s) (hspaced : spacing.headD false = true) :
    s.advance = s.advanceOne := by
  unfold State.advance
  dsimp only
  rw [h.advanceOne.isSpaced, hspaced, if_pos rfl]

theorem advance_of_unspaced (h : Within d spacing n declared s) (hspaced : spacing.headD false = false) :
    s.advance = s.advanceOne.skipBlank := by
  unfold State.advance
  dsimp only
  rw [h.advanceOne.isSpaced, hspaced, if_neg Bool.false_ne_true]

end Within

namespace On

theorem mono (h : On d spacing n p s) (hm : m ≤ n) : On d spacing m p s :=
  { h with toWithin := h.toWithin.mono hm }

/-- Goes past a blank. -/
theorem skipBlank (h : On d spacing n p s) : On d spacing n p s.skipBlank := by
  refine { h.toWithin.skipBlank with copied := ?_ }
  unfold State.skipBlank
  split
  · next hk =>
    have heof : s.cur.kind ≠ .eof := by rw [hk]; nofun
    rw [h.pos_advanceOne heof]
    exact h.copied.blank (h.cur ▸ hk)
  · exact h.copied

/-- Copies a token. -/
theorem advanceOne (h : On d spacing n p s) (heof : s.cur.kind ≠ .eof) (hk : s.cur.kind ≠ .ws)
    (hstroke : stroke d.fn p.scribe s.cur.kind s.cur.literal s.afterBlank = some (w, c)) :
    On d spacing (n + 1) (p.write w c) s.advanceOne := by
  have hsub : p.scribe.declared ⊆ (p.write w c).scribe.declared := by
    rw [Page.write_scribe]
    exact stroke_declared hstroke
  refine { (h.toWithin.advanceOne_lt heof).weaken hsub with copied := ?_ }
  rw [h.pos_advanceOne heof]
  rw [h.cur] at hk heof
  rw [h.cur, h.afterBlank] at hstroke
  exact h.copied.token heof hk hstroke

/-- Copies a token, and goes past a blank unless blanks separate expressions. -/
theorem advance (h : On d spacing n p s) (heof : s.cur.kind ≠ .eof) (hk : s.cur.kind ≠ .ws)
    (hstroke : stroke d.fn p.scribe s.cur.kind s.cur.literal s.afterBlank = some (w, c)) :
    On d spacing (n + 1) (p.write w c) s.advance := by
  have hone := h.advanceOne heof hk hstroke
  unfold State.advance
  dsimp only
  split
  · exact hone
  · exact hone.skipBlank

end On

/-! ### Attempts that have a result -/

section
variable {α β γ : Type} {P P' : State → Prop} {Q Q' : α → State → Prop} {R : β → State → Prop}

/-- If the attempt `m` ends without problems, it has a result, and `Q` holds of it if `P` did before. -/
def Gets (P : State → Prop) (m : Attempt α) (Q : α → State → Prop) : Prop :=
  Parses P m.run fun r s => ∃ a, r = some a ∧ Q a s

namespace Parses
variable {m : Parse α}

/-- Goes on after a look at the state. -/
theorem lookThen {f : State → γ} {k : γ → Parse β} (h : ∀ g, Parses (fun s => P s ∧ f s = g) (k g) R) :
    Parses P ((do return f (← get)) >>= k) R :=
  fun s hs hclean => h (f s) s (fun hc => ⟨hs hc, rfl⟩) hclean

/-- What holds for each of some conditions holds if one of them does. -/
theorem choose {ι : Type} [Inhabited ι] {P : ι → State → Prop} (h : ∀ i, Parses (P i) m Q) :
    Parses (fun s => ∃ i, P i s) m Q := by
  intro s hs hclean
  by_cases hc : s.Clean
  · obtain ⟨i, hi⟩ := hs hc
    exact h i s (fun _ => hi) hclean
  · exact h default s (fun h => absurd h hc) hclean

/-- A look at the state. -/
theorem seen {f : State → γ} : Parses P (return f (← get)) fun g s => P s ∧ f s = g :=
  fun _ hs hclean => ⟨hclean, hs hclean, rfl⟩

theorem moveTo {f : State → State} {Q : PUnit → State → Prop} (hf : State.Moves f) (h : ∀ s, P s → Q ⟨⟩ (f s)) :
    Parses P (modify f) Q :=
  step hf.isMove.problems h

theorem ite {c : Prop} [Decidable c] {m₁ m₂ : Parse α} (h₁ : c → Parses P m₁ Q) (h₂ : ¬ c → Parses P m₂ Q) :
    Parses P (if c then m₁ else m₂) Q := by
  split
  · next h => exact h₁ h
  · next h => exact h₂ h

theorem reportedAt {token : Token} {problem : Problem} {Q : PUnit → State → Prop} :
    Parses P (reportAt token problem) Q :=
  report fun s => by simp [State.report]

theorem reportedHere {problem : Problem} {Q : PUnit → State → Prop} : Parses P (Parsing.report problem) Q :=
  report fun s => by simp [State.report]

theorem expectThen (expected : TokenKind) {Q : Bool → State → Prop}
    (h : ∀ s, P s → s.cur.kind = expected → Q true s) : Parses P (expect expected) Q := by
  refine lookThen fun found => ite (fun hfound => pure fun s hs => h s hs.1 (hs.2.trans hfound)) fun _ => ?_
  exact (reportedHere (Q := fun _ _ => False)).bind fun _ => pure fun _ => False.elim

theorem expectEnd {Q : PUnit → State → Prop} (h : ∀ s, P s → s.atLineEnd → Q ⟨⟩ s) :
    Parses P expectLineEnd Q := by
  refine lookThen fun ended => ite (fun hended => pure fun s hs => h s hs.1 (hs.2.trans hended)) fun _ => ?_
  exact lookThen fun _ => reportedHere

end Parses

namespace Gets
variable {m : Attempt α}

theorem pure {a : α} (h : ∀ s, P s → Q a s) : Gets P (pure a) Q :=
  Parses.pure fun s hs => ⟨a, rfl, h s hs⟩

theorem bind {f : α → Attempt β} (hm : Gets P m Q) (hf : ∀ a, Gets (Q a) (f a) R) : Gets P (m >>= f) R := by
  show Parses P (m.run >>= fun r => match r with
    | some a => (f a).run
    | none => Pure.pure none) _
  refine Parses.bind hm fun r => ?_
  cases r with
  | none => exact Parses.pure fun s hs => by simp at hs
  | some a =>
    refine (hf a).conseq (fun s hs => ?_) fun _ _ => id
    obtain ⟨b, hb, hQ⟩ := hs
    cases hb
    exact hQ

theorem conseq (hm : Gets P m Q) (hP : ∀ s, P' s → P s) (hQ : ∀ a s, Q a s → Q' a s) : Gets P' m Q' :=
  Parses.conseq hm hP fun _ s ⟨a, ha, h⟩ => ⟨a, ha, hQ a s h⟩

/-- What is known stays known. -/
theorem frame {φ : Prop} (hm : Gets P m Q) : Gets (fun s => φ ∧ P s) m fun a s => φ ∧ Q a s :=
  (Parses.frame hm).conseq (fun _ => id) fun _ _ ⟨hφ, a, ha, hQ⟩ => ⟨a, ha, hφ, hQ⟩

/-- An attempt that is never made without problems. -/
theorem failure (h : ∀ s, ¬ P s) : Gets P failure Q :=
  Parses.pure fun s hs => absurd hs (h s)

theorem lift {m : Parse α} (hm : Parses P m Q) : Gets P (liftM m) Q :=
  Parses.lift hm fun a _ h => ⟨a, rfl, h⟩

theorem liftBind {m : Parse α} {f : α → Attempt β} (hm : Parses P m Q) (hf : ∀ a, Gets (Q a) (f a) R) :
    Gets P (liftM m >>= f) R :=
  Parses.liftBind hm hf

/-- Goes on after a look at the state. -/
theorem lookThen {f : State → γ} {k : γ → Attempt β} (h : ∀ g, Gets (fun s => P s ∧ f s = g) (k g) R) :
    Gets P (liftM (do return f (← get) : Parse γ) >>= k) R :=
  fun s hs hclean => h (f s) s (fun hc => ⟨hs hc, rfl⟩) hclean

theorem state {k : State → Attempt β} (h : ∀ g, Gets (fun s => P s ∧ s = g) (k g) R) : Gets P (get >>= k) R :=
  fun s hs hclean => h s s (fun hc => ⟨hs hc, rfl⟩) hclean

theorem moveTo {f : State → State} {k : PUnit → Attempt β} {Q : State → Prop} (hf : State.Moves f)
    (h : ∀ s, P s → Q (f s)) (hk : Gets Q (k ⟨⟩) R) : Gets P (liftM (modify f : Parse PUnit) >>= k) R :=
  liftBind (Parses.moveTo (Q := fun _ => Q) hf h) fun _ => hk

theorem mk {m : Parse (Option α)} (hm : Parses P m fun r s => ∃ a, r = some a ∧ Q a s) : Gets P (OptionT.mk m) Q :=
  hm

theorem ite {c : Prop} [Decidable c] {m₁ m₂ : Attempt α} (h₁ : c → Gets P m₁ Q) (h₂ : ¬ c → Gets P m₂ Q) :
    Gets P (if c then m₁ else m₂) Q := by
  split
  · next h => exact h₁ h
  · next h => exact h₂ h

theorem require (expected : TokenKind) {Q : Unit → State → Prop} (h : ∀ s, P s → s.cur.kind = expected → Q () s) :
    Gets P (require expected) Q := by
  refine liftBind (Parses.expectThen expected (Q := fun b s => b = true ∧ Q () s) fun s hs hk => ⟨rfl, h s hs hk⟩)
    fun b => ?_
  cases b with
  | true => exact pure fun s hs => hs.2
  | false => exact Parses.pure fun s hs => by simp at hs

theorem orNextLine (hm : Gets P m Q) : Gets P (orNextLine m) Q := by
  refine Parses.bind hm fun r => ?_
  cases r with
  | none =>
    refine (Parses.moveTo (Q := fun _ _ => False) State.moves_nextLine fun s hs => by simp at hs).bind fun _ => ?_
    exact Parses.pure fun _ => False.elim
  | some a => exact Parses.pure fun s hs => hs

end Gets

/-- The attempt reports a problem and has no result. -/
def Aborts (m : Attempt α) : Prop :=
  ∀ s, ¬ (m.run.run s).2.Clean ∧ (m.run.run s).1 = none

namespace Aborts

theorem failAt (token : Token) (problem : Problem) : Aborts (failAt token problem : Attempt α) :=
  fun s => ⟨(by simp : s.problems.push ⟨problem, token⟩ ≠ #[]), rfl⟩

theorem fail (problem : Problem) : Aborts (fail problem : Attempt α) :=
  fun s => ⟨(by simp : s.problems.push ⟨problem, s.cur⟩ ≠ #[]), rfl⟩

variable {fails : Attempt α} {rest : Attempt β}

theorem gets {m : Attempt β} (h : Aborts m) : Gets P m R :=
  fun s _ hclean => absurd hclean (h s).1

theorem bind (h : Aborts fails) (f : α → Attempt β) : Aborts (fails >>= f) := by
  intro s
  have hrun : (fails >>= f).run.run s = (none, (fails.run.run s).2) := by
    show (match (fails.run.run s).1 with
      | some a => (f a).run
      | none => Pure.pure none) (fails.run.run s).2 = _
    rw [(h s).2]
    rfl
  rw [hrun]
  exact ⟨(h s).1, rfl⟩

end Aborts

/-- What follows is only reached if a condition does not hold. -/
theorem Gets.ifFail {c : Prop} [Decidable c] {fails : Attempt α} {rest : Attempt β} (hfails : Aborts fails)
    (hrest : ¬ c → Gets P rest R) : Gets P (if c then fails >>= fun _ => rest else rest) R :=
  .ite (fun _ => (hfails.bind _).gets) hrest

/-- What follows is only reached if a condition holds. -/
theorem Gets.unlessFail {c : Prop} [Decidable c] {fails : Attempt α} {rest : Attempt β} (hfails : Aborts fails)
    (hrest : c → Gets P rest R) : Gets P (if c then rest else fails >>= fun _ => rest) R :=
  .ite hrest fun _ => (hfails.bind _).gets

end

end Parsing

end TinyScript
