import TinyScript.Proofs.Parsing.Steps

/-!
# Parsers that make progress

The loops and the nesting of the parser are bounded by the number of tokens. What shows that the bound
does nothing is that every round and every nested call starts at a later token. `Agree` compares two
parsers that differ in their bounds, at the places that have at most `n` tokens left: they run alike,
they stay within the tokens, and they go on by a token whenever their result is in `D`. After such a
step the rest has to agree only where fewer tokens are left, which is what an induction on `n` knows.
-/

namespace TinyScript.Parsing

namespace State

/-- The place is within the tokens, or right after them where only the end of input is read. -/
structure InRange (s : State) : Prop where
  pos_le : s.pos ≤ s.tokens.size
  eof : s.eof.kind = .eof

/-- How many tokens are left. -/
def remaining (s : State) : Nat :=
  s.tokens.size - s.pos

/-- A later place in the same tokens, or the same place. -/
structure Leads (s t : State) : Prop where
  tokens : t.tokens = s.tokens
  eof : t.eof = s.eof
  mono : s.pos ≤ t.pos
  bound : t.pos ≤ t.tokens.size

variable {s t u : State}

theorem InRange.refl (h : s.InRange) : s.Leads s :=
  ⟨rfl, rfl, Nat.le_refl _, h.pos_le⟩

theorem Leads.trans (h : s.Leads t) (h' : t.Leads u) : s.Leads u :=
  ⟨h'.tokens.trans h.tokens, h'.eof.trans h.eof, Nat.le_trans h.mono h'.mono, h'.bound⟩

theorem Leads.inRange (h : s.Leads t) (hs : s.InRange) : t.InRange :=
  ⟨h.bound, h.eof ▸ hs.eof⟩

theorem Leads.remaining_le (h : s.Leads t) : t.remaining ≤ s.remaining := by
  have := h.mono
  unfold remaining
  rw [h.tokens]
  omega

theorem Leads.remaining_lt (h : s.Leads t) (hlt : s.pos < t.pos) : t.remaining < s.remaining := by
  have := h.bound
  unfold remaining
  rw [h.tokens] at this ⊢
  omega

theorem remaining_lt_fuel (s : State) : s.remaining < s.fuel := by
  unfold remaining fuel
  omega

/-- Only the end of input is read beyond the tokens. -/
theorem InRange.lt_size (hs : s.InRange) (h : s.cur.kind ≠ .eof) : s.pos < s.tokens.size := by
  refine Nat.lt_of_not_le fun hge => h ?_
  have hnone : s.tokens[s.pos]? = none := Array.getElem?_eq_none hge
  rw [cur, tokenAt, hnone]
  exact hs.eof

/-! ### Moves -/

theorem leads_advanceOne (hs : s.InRange) : s.Leads s.advanceOne := by
  unfold advanceOne
  split
  · next h => exact ⟨rfl, rfl, Nat.le_succ _, h⟩
  · exact hs.refl

theorem leads_skipBlank (hs : s.InRange) : s.Leads s.skipBlank := by
  unfold skipBlank
  split
  · exact leads_advanceOne hs
  · exact hs.refl

theorem leads_advance (hs : s.InRange) : s.Leads s.advance := by
  have hone := leads_advanceOne hs
  unfold advance
  dsimp only
  split
  · exact hone
  · exact hone.trans (leads_skipBlank (hone.inRange hs))

theorem pos_lt_advanceOne (hs : s.InRange) (h : s.cur.kind ≠ .eof) : s.pos < s.advanceOne.pos := by
  rw [advanceOne, if_pos (hs.lt_size h)]
  exact Nat.lt_succ_self _

theorem pos_lt_advance (hs : s.InRange) (h : s.cur.kind ≠ .eof) : s.pos < s.advance.pos := by
  have hlt := pos_lt_advanceOne hs h
  have hone := (leads_advanceOne hs).inRange hs
  unfold advance
  dsimp only
  split
  · exact hlt
  · exact Nat.lt_of_lt_of_le hlt (leads_skipBlank hone).mono

theorem lineEndFrom_le (fuel i : Nat) : i ≤ s.lineEndFrom fuel i ∧ s.lineEndFrom fuel i ≤ i + fuel := by
  induction fuel generalizing i with
  | zero => exact ⟨Nat.le_refl _, Nat.le_refl _⟩
  | succ fuel ih =>
    have hnext := ih (i + 1)
    unfold lineEndFrom
    split <;> omega

/-- A line ends at the latest with the tokens. -/
theorem lineEndFrom_ends (hs : s.InRange) (fuel i : Nat) (h : s.tokens.size ≤ i + fuel) :
    (s.tokenAt (s.lineEndFrom fuel i)).kind = .nl ∨ (s.tokenAt (s.lineEndFrom fuel i)).kind = .eof := by
  induction fuel generalizing i with
  | zero =>
    have hnone : s.tokens[i]? = none := Array.getElem?_eq_none h
    refine .inr ?_
    rw [lineEndFrom, tokenAt, hnone]
    exact hs.eof
  | succ fuel ih =>
    unfold lineEndFrom
    split
    · next hk => exact .inl hk
    · next hk => exact .inr hk
    · exact ih (i + 1) (by omega)

theorem leads_toLineEnd (hs : s.InRange) : s.Leads s.toLineEnd := by
  have hle := lineEndFrom_le (s := s) (s.tokens.size - s.pos) s.pos
  have hpos := hs.pos_le
  refine ⟨rfl, rfl, hle.1, ?_⟩
  show s.lineEndFrom (s.tokens.size - s.pos) s.pos ≤ s.tokens.size
  omega

theorem toLineEnd_ends (hs : s.InRange) : s.toLineEnd.cur.kind = .nl ∨ s.toLineEnd.cur.kind = .eof :=
  lineEndFrom_ends hs _ _ (by have := hs.pos_le; omega)

theorem leads_nextLine (hs : s.InRange) : s.Leads s.nextLine := by
  have hend := leads_toLineEnd hs
  unfold nextLine
  dsimp only
  split
  · exact hend.trans (leads_advance (hend.inRange hs))
  · exact hend

theorem pos_lt_nextLine (hs : s.InRange) (h : s.cur.kind ≠ .eof) : s.pos < s.nextLine.pos := by
  have hend := leads_toLineEnd hs
  have hmono := hend.mono
  unfold nextLine
  dsimp only
  split
  · next hnl =>
    have hlt := pos_lt_advance (hend.inRange hs) (by rw [hnl]; nofun)
    omega
  · next hnl =>
    -- the line ends at the end of input, so at another token
    have hne : s.toLineEnd.pos ≠ s.pos := by
      intro heq
      have hcur : s.toLineEnd.cur = s.cur := congrArg s.tokenAt heq
      exact h (hcur ▸ (toLineEnd_ends hs).resolve_left hnl)
    omega

theorem leads_popSpacing (hs : s.InRange) : s.Leads s.popSpacing := by
  have hs' : InRange { s with spacing := s.spacing.tail } := ⟨hs.pos_le, hs.eof⟩
  have hpop : s.Leads { s with spacing := s.spacing.tail } := ⟨rfl, rfl, Nat.le_refl _, hs.pos_le⟩
  unfold popSpacing
  dsimp only
  split
  · exact hpop.trans (leads_advance hs')
  · exact hpop

end State

/-! ### Parsers that stay where they are -/

section
variable {α β γ : Type}

/-- The parser does not move. -/
def Stays (m : Parse α) : Prop :=
  ∀ s, (m.run s).2.pos = s.pos ∧ (m.run s).2.tokens = s.tokens ∧ (m.run s).2.eof = s.eof

namespace Stays
variable {m : Parse α}

theorem pure (a : α) : Stays (pure a) := fun _ => ⟨rfl, rfl, rfl⟩

theorem bind {f : α → Parse β} (hm : Stays m) (hf : ∀ a, Stays (f a)) : Stays (m >>= f) := by
  intro s
  obtain ⟨hpos, htokens, heof⟩ := hm s
  obtain ⟨hpos', htokens', heof'⟩ := hf (m.run s).1 (m.run s).2
  exact ⟨hpos'.trans hpos, htokens'.trans htokens, heof'.trans heof⟩

theorem tryBind {m : Attempt α} {f : α → Attempt β} (hm : Stays m.run) (hf : ∀ a, Stays (f a).run) :
    Stays (m >>= f).run := by
  refine bind (f := fun r => match r with
    | some a => (f a).run
    | none => Pure.pure none) hm fun r => ?_
  cases r with
  | none => exact pure _
  | some a => exact hf a

theorem get : Stays (get : Parse State) := fun _ => ⟨rfl, rfl, rfl⟩

theorem look {f : State → α} : Stays (return f (← MonadState.get)) := fun _ => ⟨rfl, rfl, rfl⟩

theorem reportAt (token : Token) (problem : Problem) : Stays (reportAt token problem) :=
  fun _ => ⟨rfl, rfl, rfl⟩

theorem report (problem : Problem) : Stays (report problem) := fun _ => ⟨rfl, rfl, rfl⟩

theorem forM {f : β → Parse PUnit} (hf : ∀ b, Stays (f b)) (l : List β) : Stays (l.forM f) := by
  induction l with
  | nil => exact pure _
  | cons b l ih => exact (hf b).bind fun _ => ih

theorem optionForM {f : β → Parse PUnit} (hf : ∀ b, Stays (f b)) (o : Option β) : Stays (o.forM f) := by
  cases o with
  | none => exact pure _
  | some b => exact hf b

theorem tryForM {f : β → Parse PUnit} (hf : ∀ b, Stays (f b)) (o : Option β) :
    Stays (o.forM fun b => (liftM (f b) : Attempt PUnit)).run := by
  cases o with
  | none => exact pure _
  | some b => exact (hf b).bind fun _ => pure _

theorem expect (expected : TokenKind) : Stays (expect expected) := by
  refine look.bind fun found => ?_
  split
  · exact pure _
  · exact (report _).bind fun _ => pure _

theorem expectLineEnd : Stays expectLineEnd := by
  refine look.bind fun b => ?_
  split
  · exact pure _
  · exact look.bind fun _ => report _

theorem readVar? (name : String) : Stays (readVar? name) := by
  intro s
  rw [run_readVar?]
  cases s.scopes.read? name <;> exact ⟨rfl, rfl, rfl⟩

end Stays

/-- The attempt does not move and has no result. -/
def Fails (m : Attempt α) : Prop :=
  Stays m.run ∧ ∀ s, (m.run.run s).1 = none

namespace Fails

theorem failure : Fails (failure : Attempt α) := ⟨Stays.pure _, fun _ => rfl⟩

theorem failAt (token : Token) (problem : Problem) : Fails (failAt token problem : Attempt α) :=
  ⟨fun _ => ⟨rfl, rfl, rfl⟩, fun _ => rfl⟩

theorem fail (problem : Problem) : Fails (fail problem : Attempt α) :=
  ⟨fun _ => ⟨rfl, rfl, rfl⟩, fun _ => rfl⟩

end Fails

/-! ### Parsers that agree -/

/-- Any token. -/
abbrev Any : TokenKind → Prop := fun _ => True

/-- Any token but the end of input. -/
abbrev Live : TokenKind → Prop := fun k => k ≠ .eof

abbrev Always : α → Prop := fun _ => True

abbrev Never : α → Prop := fun _ => False

/-- The attempt has a result. -/
def Succeeds (r : Option α) : Prop :=
  r.isSome

theorem not_succeeds_none : ¬ Succeeds (none : Option α) := nofun

/-- With at most `n` tokens left and a current token in `p`, both parsers do the same. They stay within
the tokens, and go on by a token if the result is in `D`. -/
def Agree (n : Nat) (p : TokenKind → Prop) (D : α → Prop) (m m' : Parse α) : Prop :=
  ∀ s : State, s.InRange → s.remaining ≤ n → p s.cur.kind →
    m.run s = m'.run s ∧ s.Leads (m.run s).2 ∧ (D (m.run s).1 → s.pos < (m.run s).2.pos)

namespace Agree
variable {n j : Nat} {p q : TokenKind → Prop} {C D : α → Prop} {E : β → Prop} {m m' : Parse α}
  {f f' : α → Parse β}

theorem mono (h : Agree n p D m m') (hj : j ≤ n) (hp : ∀ k, q k → p k) (hD : ∀ a, C a → D a) :
    Agree j q C m m' := by
  intro s hs hn hq
  obtain ⟨heq, hleads, hlt⟩ := h s hs (Nat.le_trans hn hj) (hp _ hq)
  exact ⟨heq, hleads, fun hC => hlt (hD _ hC)⟩

theorem weaken (h : Agree n Any D m m') (hj : j ≤ n) : Agree j p Never m m' :=
  h.mono hj (fun _ _ => trivial) nofun

theorem pure {a : α} (h : ¬ D a) : Agree n p D (pure a) (pure a) :=
  fun _ hs _ _ => ⟨rfl, hs.refl, fun hD => absurd hD h⟩

/-- After a step on to another token the rest has to agree only where fewer tokens are left. -/
theorem bind (hm : Agree n p C m m') (hslow : ∀ a, ¬ C a → Agree n Any E (f a) (f' a))
    (hfast : ∀ a, C a → ∀ j < n, Agree j Any Never (f a) (f' a)) :
    Agree n p E (m >>= f) (m' >>= f') := by
  intro s hs hn hp
  obtain ⟨heq, hleads, hlt⟩ := hm s hs hn hp
  have hin := hleads.inRange hs
  show (f (m.run s).1).run (m.run s).2 = (f' (m'.run s).1).run (m'.run s).2 ∧
    s.Leads ((f (m.run s).1).run (m.run s).2).2 ∧
    (E ((f (m.run s).1).run (m.run s).2).1 → s.pos < ((f (m.run s).1).run (m.run s).2).2.pos)
  rw [← heq]
  by_cases hC : C (m.run s).1
  · have hfewer := hleads.remaining_lt (hlt hC)
    obtain ⟨heq', hleads', -⟩ := hfast _ hC _ (Nat.lt_of_lt_of_le hfewer hn) (m.run s).2 hin
      (Nat.le_refl _) trivial
    exact ⟨heq', hleads.trans hleads', fun _ => Nat.lt_of_lt_of_le (hlt hC) hleads'.mono⟩
  · obtain ⟨heq', hleads', hlt'⟩ := hslow _ hC (m.run s).2 hin (Nat.le_trans hleads.remaining_le hn)
      trivial
    exact ⟨heq', hleads.trans hleads', fun hE => Nat.lt_of_le_of_lt hleads.mono (hlt' hE)⟩

/-- Goes on after a step that may not move. -/
theorem slow (hm : Agree n p Never m m') (hf : ∀ a, Agree n Any E (f a) (f' a)) :
    Agree n p E (m >>= f) (m' >>= f') :=
  hm.bind (fun a _ => hf a) nofun

/-- Goes on after a step on to another token. -/
theorem fast (hm : Agree n p Always m m') (hf : ∀ a, ∀ j < n, Agree j Any Never (f a) (f' a)) :
    Agree n p E (m >>= f) (m' >>= f') :=
  hm.bind (fun _ h => absurd trivial h) fun a _ => hf a

/-- Goes on after a step that does not move. -/
theorem still {m : Parse α} (hm : Stays m) (hf : ∀ a, Agree n p E (f a) (f' a)) :
    Agree n p E (m >>= f) (m >>= f') := by
  intro s hs hn hp
  obtain ⟨hpos, htokens, heof⟩ := hm s
  have hleads : s.Leads (m.run s).2 := ⟨htokens, heof, Nat.le_of_eq hpos.symm, by
    rw [hpos, htokens]
    exact hs.pos_le⟩
  have hcur : (m.run s).2.cur = s.cur := by
    simp only [State.cur, State.tokenAt, hpos, htokens, heof]
  obtain ⟨heq, hleads', hlt⟩ := hf (m.run s).1 (m.run s).2 (hleads.inRange hs)
    (Nat.le_trans hleads.remaining_le hn) (hcur ▸ hp)
  exact ⟨heq, hleads.trans hleads', fun hE => hpos ▸ hlt hE⟩

/-- Goes on after a look at the state. -/
theorem look {g : State → γ} {f f' : γ → Parse β}
    (h : ∀ s : State, p s.cur.kind → Agree n (· = s.cur.kind) E (f (g s)) (f' (g s))) :
    Agree n p E ((do return g (← get)) >>= f) ((do return g (← get)) >>= f') :=
  fun s hs hn hp => h s hp s hs hn rfl

theorem state {f f' : State → Parse β}
    (h : ∀ s : State, p s.cur.kind → Agree n (· = s.cur.kind) E (f s) (f' s)) :
    Agree n p E (get >>= f) (get >>= f') :=
  fun s hs hn hp => h s hp s hs hn rfl

/-- The bound that a state gives is above the number of tokens left. -/
theorem fuel {f f' : State → Parse β}
    (h : ∀ s : State, ∀ j ≤ n, j < s.fuel → Agree j p E (f s) (f' s)) :
    Agree n p E (get >>= f) (get >>= f') :=
  fun s hs hn hp => h s s.remaining hn s.remaining_lt_fuel s hs (Nat.le_refl _) hp

theorem stays {m : Parse α} (hm : Stays m) : Agree n p Never m m := by
  have h : Agree n p Never (m >>= fun a => Pure.pure a) (m >>= fun a => Pure.pure a) :=
    still hm fun a => pure id
  rwa [bind_pure] at h

theorem move {f : State → State} (hf : ∀ s : State, s.InRange → s.Leads (f s)) :
    Agree n p Never (modify f) (modify f) :=
  fun s hs _ _ => ⟨rfl, hf s hs, nofun⟩

theorem advance (hp : ∀ k, p k → k ≠ .eof) : Agree n p Always advance advance :=
  fun _ hs _ hk => ⟨rfl, State.leads_advance hs, fun _ => State.pos_lt_advance hs (hp _ hk)⟩

theorem advanceOne (hp : ∀ k, p k → k ≠ .eof) : Agree n p Always advanceOne advanceOne :=
  fun _ hs _ hk => ⟨rfl, State.leads_advanceOne hs, fun _ => State.pos_lt_advanceOne hs (hp _ hk)⟩

/-- Goes on from a token that is known. -/
theorem advanceFrom {k : TokenKind} (hk : k ≠ .eof) :
    Agree n (· = k) Always Parsing.advance Parsing.advance :=
  advance fun _ h => h ▸ hk

theorem advanceOneFrom {k : TokenKind} (hk : k ≠ .eof) :
    Agree n (· = k) Always Parsing.advanceOne Parsing.advanceOne :=
  advanceOne fun _ h => h ▸ hk

theorem skip : Agree n p Never Parsing.advance Parsing.advance := move fun _ => State.leads_advance

theorem skipOne : Agree n p Never Parsing.advanceOne Parsing.advanceOne :=
  move fun _ => State.leads_advanceOne

theorem nextLine : Agree n p Never nextLine nextLine := move fun _ => State.leads_nextLine

theorem skipBlank : Agree n p Never skipBlank skipBlank := move fun _ => State.leads_skipBlank

theorem ite {c : Prop} [Decidable c] {m₁ m₁' m₂ m₂' : Parse α} (h₁ : c → Agree n p D m₁ m₁')
    (h₂ : ¬ c → Agree n p D m₂ m₂') : Agree n p D (if c then m₁ else m₂) (if c then m₁' else m₂') := by
  split
  · next h => exact h₁ h
  · next h => exact h₂ h

end Agree

/-! ### Attempts that agree -/

/-- Both attempts do the same, and go on by a token if the result is in `D`. -/
abbrev AgreeTry (n : Nat) (p : TokenKind → Prop) (D : Option α → Prop) (m m' : Attempt α) : Prop :=
  Agree n p D m.run m'.run

namespace AgreeTry
variable {n j : Nat} {p q : TokenKind → Prop} {C D : Option α → Prop} {E : Option β → Prop}
  {m m' : Attempt α} {f f' : α → Attempt β}

theorem pure {a : α} (h : ¬ D (some a)) : AgreeTry n p D (pure a) (pure a) := Agree.pure h

theorem failure (h : ¬ D none) : AgreeTry n p D failure failure := Agree.pure h

theorem fails {m : Attempt α} (hm : Fails m) (h : ¬ D none) : AgreeTry n p D m m := by
  intro s hs hn hp
  obtain ⟨heq, hleads, -⟩ := Agree.stays (n := n) (p := p) hm.1 s hs hn hp
  refine ⟨heq, hleads, fun hD => absurd hD ?_⟩
  rw [hm.2 s]
  exact h

theorem bind (hm : AgreeTry n p C m m') (hnone : E none → C none)
    (hslow : ∀ a, ¬ C (some a) → AgreeTry n Any E (f a) (f' a))
    (hfast : ∀ a, C (some a) → ∀ j < n, AgreeTry j Any Never (f a) (f' a)) :
    AgreeTry n p E (m >>= f) (m' >>= f') := by
  show Agree n p E (m.run >>= fun r => match r with
      | some a => (f a).run
      | none => Pure.pure none) (m'.run >>= fun r => match r with
      | some a => (f' a).run
      | none => Pure.pure none)
  refine Agree.bind hm (fun r hr => ?_) fun r hr j hj => ?_
  · cases r with
    | none => exact Agree.pure fun h => hr (hnone h)
    | some a => exact hslow a hr
  · cases r with
    | none => exact Agree.pure id
    | some a => exact hfast a hr j hj

/-- Goes on after an attempt that may not move. -/
theorem slow (hm : AgreeTry n p Never m m') (hE : ¬ E none)
    (hf : ∀ a, AgreeTry n Any E (f a) (f' a)) : AgreeTry n p E (m >>= f) (m' >>= f') :=
  bind hm hE (fun a _ => hf a) nofun

/-- Goes on after an attempt that goes on to another token when it has a result. -/
theorem fast (hm : AgreeTry n p Succeeds m m') (hE : ¬ E none)
    (hf : ∀ a, ∀ j < n, AgreeTry j Any Never (f a) (f' a)) : AgreeTry n p E (m >>= f) (m' >>= f') :=
  bind hm (fun h => absurd h hE) (fun _ h => absurd rfl h) fun a _ => hf a

/-- Goes on after an attempt that does not move. -/
theorem still {m : Attempt α} (hm : Stays m.run) (hE : ¬ E none) (hf : ∀ a, AgreeTry n p E (f a) (f' a)) :
    AgreeTry n p E (m >>= f) (m >>= f') := by
  show Agree n p E (m.run >>= fun r => match r with
      | some a => (f a).run
      | none => Pure.pure none) (m.run >>= fun r => match r with
      | some a => (f' a).run
      | none => Pure.pure none)
  refine Agree.still hm fun r => ?_
  cases r with
  | none => exact Agree.pure hE
  | some a => exact hf a

theorem map {g : α → β} (hm : AgreeTry n p Succeeds m m') : AgreeTry n p Succeeds (g <$> m) (g <$> m') := by
  rw [map_eq_pure_bind, map_eq_pure_bind]
  exact fast hm not_succeeds_none fun _ _ _ => pure id

theorem lift {m m' : Parse α} (hm : Agree n p Always m m') :
    AgreeTry n p Always (liftM m : Attempt α) (liftM m') :=
  Agree.fast (f := fun a => Pure.pure (some a)) hm fun _ _ _ => Agree.pure id

theorem liftSlow {m m' : Parse α} (hm : Agree n p Never m m') (hf : ∀ a, AgreeTry n Any E (f a) (f' a)) :
    AgreeTry n p E (liftM m >>= f) (liftM m' >>= f') :=
  Agree.slow (f := fun a => (f a).run) hm hf

theorem liftFast {m m' : Parse α} (hm : Agree n p Always m m')
    (hf : ∀ a, ∀ j < n, AgreeTry j Any Never (f a) (f' a)) :
    AgreeTry n p E (liftM m >>= f) (liftM m' >>= f') :=
  Agree.fast (f := fun a => (f a).run) hm hf

theorem liftStill {m : Parse α} (hm : Stays m) (hf : ∀ a, AgreeTry n p E (f a) (f' a)) :
    AgreeTry n p E (liftM m >>= f) (liftM m >>= f') :=
  Agree.still (f := fun a => (f a).run) hm hf

theorem look {g : State → γ} {f f' : γ → Attempt β}
    (h : ∀ s : State, p s.cur.kind → AgreeTry n (· = s.cur.kind) E (f (g s)) (f' (g s))) :
    AgreeTry n p E (liftM (do return g (← get) : Parse γ) >>= f)
      (liftM (do return g (← get) : Parse γ) >>= f') :=
  Agree.look (f := fun a => (f a).run) h

theorem state {f f' : State → Attempt β}
    (h : ∀ s : State, p s.cur.kind → AgreeTry n (· = s.cur.kind) E (f s) (f' s)) :
    AgreeTry n p E (get >>= f) (get >>= f') := by
  show Agree n p E (get >>= fun a => (f a).run) (get >>= fun a => (f' a).run)
  exact Agree.state h

theorem fuel {f f' : State → Attempt β}
    (h : ∀ s : State, ∀ j ≤ n, j < s.fuel → AgreeTry j p E (f s) (f' s)) :
    AgreeTry n p E (get >>= f) (get >>= f') := by
  show Agree n p E (get >>= fun a => (f a).run) (get >>= fun a => (f' a).run)
  exact Agree.fuel h

/-- Nothing follows a failure. -/
theorem failsThen {fails : Attempt γ} {f f' : γ → Attempt β} (hfails : Fails fails) (hE : ¬ E none) :
    AgreeTry n p E (fails >>= f) (fails >>= f') := by
  have hrun (g : γ → Attempt β) : (fails >>= g).run = fails.run >>= fun _ => Pure.pure none := by
    funext s
    show (match (fails.run.run s).1 with
      | some a => (g a).run
      | none => Pure.pure none) (fails.run.run s).2 = _
    rw [hfails.2 s]
    rfl
  show Agree n p E (fails >>= f).run (fails >>= f').run
  rw [hrun, hrun]
  exact Agree.still hfails.1 fun _ => Agree.pure hE

/-- What follows is only reached if a condition does not hold. -/
theorem ifFail {c : Prop} [Decidable c] {fails : Attempt γ} {rest rest' : Attempt β}
    (hfails : Fails fails) (hE : ¬ E none) (h : ¬ c → AgreeTry n p E rest rest') :
    AgreeTry n p E (if c then fails >>= fun _ => rest else rest)
      (if c then fails >>= fun _ => rest' else rest') := by
  split
  · exact failsThen hfails hE
  · next hc => exact h hc

/-- What follows is only reached if a condition holds. -/
theorem unlessFail {c : Prop} [Decidable c] {fails : Attempt γ} {rest rest' : Attempt β}
    (hfails : Fails fails) (hE : ¬ E none) (h : c → AgreeTry n p E rest rest') :
    AgreeTry n p E (if c then rest else fails >>= fun _ => rest)
      (if c then rest' else fails >>= fun _ => rest') := by
  split
  · next hc => exact h hc
  · exact failsThen hfails hE

theorem forIn {f : γ → PUnit → Attempt (ForInStep PUnit)}
    (hf : ∀ b, AgreeTry n Any Never (f b ⟨⟩) (f b ⟨⟩)) (l : List γ) :
    AgreeTry n Any Never (forIn l PUnit.unit f) (forIn l PUnit.unit f) := by
  induction l with
  | nil => exact pure id
  | cons b l ih =>
    rw [List.forIn_cons]
    refine slow (hf b) id fun r => ?_
    cases r with
    | done => exact pure id
    | yield => exact ih

theorem ite {c : Prop} [Decidable c] {m₁ m₁' m₂ m₂' : Attempt α} (h₁ : c → AgreeTry n p D m₁ m₁')
    (h₂ : ¬ c → AgreeTry n p D m₂ m₂') : AgreeTry n p D (if c then m₁ else m₂) (if c then m₁' else m₂') := by
  split
  · next h => exact h₁ h
  · next h => exact h₂ h

theorem require (expected : TokenKind) : AgreeTry n p Never (require expected) (require expected) := by
  refine liftStill (Stays.expect expected) fun b => ?_
  split
  · exact pure id
  · exact failure id

theorem withSpacing (spaced : Bool) (hm : AgreeTry n p D m m') :
    AgreeTry n p D (withSpacing spaced m) (withSpacing spaced m') := by
  refine Agree.still (fun _ => ⟨rfl, rfl, rfl⟩) fun _ => ?_
  have hpop {j : Nat} (r : Option α) : Agree j Any Never (do modify State.popSpacing; return r)
      (do modify State.popSpacing; return r) :=
    (Agree.move fun _ => State.leads_popSpacing).slow fun _ => Agree.pure id
  refine Agree.bind hm (fun r hr => ?_) fun r _ _ _ => hpop r
  exact (Agree.move fun _ => State.leads_popSpacing).slow fun _ => Agree.pure hr

theorem orNextLine (hm : AgreeTry n p D m m') (hD : ¬ D none) :
    AgreeTry n p D (orNextLine m) (orNextLine m') := by
  refine Agree.bind hm (fun r hr => ?_) fun r hr j _ => ?_
  · cases r with
    | none => exact Agree.nextLine.slow fun _ => Agree.pure hD
    | some a => exact Agree.pure hr
  · cases r with
    | none => exact absurd hr hD
    | some a => exact Agree.pure id

/-- An attempt that goes to the next line if it has no result makes progress in any case. -/
theorem orNextLine_always (hp : ∀ k, p k → k ≠ .eof) (hm : AgreeTry n p Succeeds m m') :
    AgreeTry n p Always (Parsing.orNextLine m) (Parsing.orNextLine m') := by
  intro s hs hn hk
  obtain ⟨heq, hleads, -⟩ := orNextLine hm not_succeeds_none s hs hn hk
  refine ⟨heq, hleads, fun _ => ?_⟩
  obtain ⟨-, hleads', hlt⟩ := hm s hs hn hk
  have hrun : ((Parsing.orNextLine m).run.run s).2 =
      if (m.run.run s).1.isNone then (m.run.run s).2.nextLine else (m.run.run s).2 := by
    show ((if (m.run.run s).1.isNone then Parsing.nextLine >>= fun _ => Pure.pure (m.run.run s).1
      else Pure.pure (m.run.run s).1).run (m.run.run s).2).2 = _
    split <;> rfl
  rw [hrun]
  split
  · next hnone =>
    -- the attempt may have stopped before the token it began at
    by_cases hpos : s.pos < (m.run.run s).2.pos
    · exact Nat.lt_of_lt_of_le hpos (State.leads_nextLine (hleads'.inRange hs)).mono
    · have heq : (m.run.run s).2.pos = s.pos := Nat.le_antisymm (Nat.le_of_not_lt hpos) hleads'.mono
      have hcur : (m.run.run s).2.cur = s.cur := by
        simp only [State.cur, State.tokenAt, heq, hleads'.tokens, hleads'.eof]
      have hnext := State.pos_lt_nextLine (hleads'.inRange hs) (hcur ▸ hp _ hk)
      rwa [heq] at hnext
  · next hsome => exact hlt (by simpa [Succeeds, Option.isSome_iff_ne_none] using hsome)

end AgreeTry

end

end TinyScript.Parsing
