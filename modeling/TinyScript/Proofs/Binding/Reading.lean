import TinyScript.Proofs.Binding.Marks
import TinyScript.Proofs.Parsing.ExpressionProgress

/-!
# What has been read at a place

`Reading σ os s` says that nothing has happened from `σ` to `s` but that the occurrences `os` have been
read: the place is another one, and the variables that they refer to are marked. An attempt that ends
without problems has a result (`Tries`), because every failure is reported; so what is marked is what has
been read. Parsers that read no variables keep whatever does not depend on the place (`Stable`).
-/

namespace TinyScript

/-- The nearest variable of the name has the type that is recorded. -/
def Scopes.Refers (ss : Scopes) (o : Occurrence) : Prop :=
  o.name ≠ "_" ∧ ∃ τ, ss.ty? o.name = some τ ∧ τ.same o.ty

namespace Parsing

namespace State

/-- The state without its place and its problems. -/
def site (s : State) : State :=
  { s with pos := 0, problems := #[] }

/-- Marks the variables that occurrences refer to. -/
def mark (s : State) (os : List Occurrence) : State :=
  { s with scopes := s.scopes.markAll os }

@[simp] theorem mark_nil (s : State) : s.mark [] = s := rfl

theorem mark_append (s : State) (os us : List Occurrence) : s.mark (os ++ us) = (s.mark os).mark us := by
  simp [mark, Scopes.markAll_append]

/-- Another place in the same state, within the tokens if the first was. -/
structure Alike (s t : State) : Prop where
  site : t.site = s.site
  problems : t.problems = s.problems
  inRange : s.InRange → t.InRange

variable {s t u : State}

theorem Alike.refl (s : State) : s.Alike s := ⟨rfl, rfl, id⟩

theorem Alike.trans (h : s.Alike t) (h' : t.Alike u) : s.Alike u :=
  ⟨h'.site.trans h.site, h'.problems.trans h.problems, h'.inRange ∘ h.inRange⟩

theorem alike_advanceOne (s : State) : s.Alike s.advanceOne := by
  refine ⟨?_, moves_advanceOne.isMove.problems s, fun hs => (leads_advanceOne hs).inRange hs⟩
  unfold advanceOne
  split <;> rfl

theorem alike_skipBlank (s : State) : s.Alike s.skipBlank := by
  unfold skipBlank
  split
  · exact s.alike_advanceOne
  · exact .refl s

theorem alike_advance (s : State) : s.Alike s.advance := by
  unfold advance
  dsimp only
  split
  · exact s.alike_advanceOne
  · exact s.alike_advanceOne.trans (alike_skipBlank _)

theorem alike_toLineEnd (s : State) : s.Alike s.toLineEnd :=
  ⟨rfl, rfl, fun hs => (leads_toLineEnd hs).inRange hs⟩

theorem alike_nextLine (s : State) : s.Alike s.nextLine := by
  unfold nextLine
  dsimp only
  split
  · exact s.alike_toLineEnd.trans (alike_advance _)
  · exact s.alike_toLineEnd

end State

/-- The occurrences `os` have been read since `σ`, and refer to what is declared there. -/
structure Reading (σ : State) (os : List Occurrence) (s : State) : Prop where
  inRange : s.InRange
  site : s.site = (σ.mark os).site
  refers : ∀ o ∈ os, σ.scopes.Refers o

namespace Reading
variable {σ : State} {os : List Occurrence} {s : State}

theorem refl (h : s.InRange) : Reading s [] s :=
  ⟨h, rfl, nofun⟩

theorem scopes (h : Reading σ os s) : s.scopes = σ.scopes.markAll os :=
  congrArg State.scopes h.site

theorem tokens (h : Reading σ os s) : s.tokens = σ.tokens :=
  (congrArg State.tokens h.site :)

theorem eof (h : Reading σ os s) : s.eof = σ.eof :=
  (congrArg State.eof h.site :)

theorem spacing (h : Reading σ os s) : s.spacing = σ.spacing :=
  (congrArg State.spacing h.site :)

theorem prelude (h : Reading σ os s) : s.prelude = σ.prelude :=
  (congrArg State.prelude h.site :)

theorem funcs (h : Reading σ os s) : s.funcs = σ.funcs :=
  (congrArg State.funcs h.site :)

theorem declared (h : Reading σ os s) : s.declared = σ.declared :=
  (congrArg State.declared h.site :)

theorem handlers (h : Reading σ os s) : s.handlers = σ.handlers :=
  (congrArg State.handlers h.site :)

/-- What has been read so far is taken as part of the state in which reading goes on. -/
theorem rebase (h : Reading σ os s) : (∀ o ∈ os, σ.scopes.Refers o) ∧ Reading (σ.mark os) [] s :=
  ⟨h.refers, h.inRange, h.site, nofun⟩

end Reading

/-- A change that is the same at every place. -/
structure State.IsUpdate (f : State → State) : Prop where
  site : ∀ s, (f s).site = f s.site
  pos : ∀ s, (f s).pos = s.pos
  tokens : ∀ s, (f s).tokens = s.tokens
  eof : ∀ s, (f s).eof = s.eof
  problems : ∀ s, (f s).problems = s.problems

theorem Reading.update {f : State → State} (hf : State.IsUpdate f) {σ : State} {os : List Occurrence}
    {s : State} (h : Reading σ os s) :
    (∀ o ∈ os, σ.scopes.Refers o) ∧ Reading (f (σ.mark os)) [] (f s) := by
  refine ⟨h.refers, ⟨?_, ?_⟩, ?_, nofun⟩
  · rw [hf.pos, hf.tokens]
    exact h.inRange.pos_le
  · rw [hf.eof]
    exact h.inRange.eof
  · rw [hf.site, h.site, State.mark_nil, hf.site]

/-- What does not depend on the place. -/
class Stable (P : State → Prop) : Prop where
  of_alike {s t : State} : s.Alike t → P s → P t

instance (σ : State) (os : List Occurrence) : Stable (Reading σ os) where
  of_alike h hs := ⟨h.inRange hs.inRange, h.site.trans hs.site, hs.refers⟩

instance (φ : Prop) (P : State → Prop) [Stable P] : Stable fun s => φ ∧ P s where
  of_alike h hs := ⟨hs.1, Stable.of_alike h hs.2⟩

instance : Stable fun _ => False where
  of_alike _ := id

section
variable {α β γ : Type} {P : State → Prop} {Q Q' : α → State → Prop} {R : β → State → Prop}

/-! ### Parsers that keep what they are told -/

namespace Parses

theorem pre {m : Parse α} {I : State → Prop} (hm : Parses P m Q) (h : ∀ s, I s → P s) : Parses I m Q :=
  hm.conseq h fun _ _ => id

theorem post {m : Parse α} (hm : Parses P m Q) (h : ∀ a s, Q a s → Q' a s) : Parses P m Q' :=
  hm.conseq (fun _ => id) h

/-- What is known does not have to be used. -/
theorem of_false {m : Parse α} (hm : Parses P m Q) {Q' : α → State → Prop} :
    Parses (fun _ => False) m Q' := by
  intro s hs hclean
  obtain ⟨h, -⟩ := hm.frame (φ := False) s (fun h => (hs h).elim) hclean
  exact (hs h).elim

theorem move [Stable P] {f : State → State} (hf : ∀ s : State, s.Alike (f s)) :
    Parses P (modify f) fun _ => P :=
  step (fun s => (hf s).problems) fun s => Stable.of_alike (hf s)

theorem here : Parses P MonadState.get fun t s => P s ∧ s = t :=
  state fun _ h => ⟨h, rfl⟩

theorem look {f : State → α} : Parses P (return f (← MonadState.get)) fun a s => P s ∧ f s = a :=
  here.bind fun _ => pure fun _ hs => ⟨hs.1, congrArg f hs.2⟩

theorem peek {f : State → α} : Parses P (return f (← get)) fun _ => P :=
  look.post fun _ _ => And.left

theorem get : Parses P get fun _ => P :=
  state fun _ => id

theorem reportAt (token : Token) (problem : Problem) {Q : Unit → State → Prop} :
    Parses P (reportAt token problem) Q :=
  report fun s => by simp [State.report]

theorem reportHere (problem : Problem) {Q : Unit → State → Prop} : Parses P (Parsing.report problem) Q :=
  report fun s => by simp [State.report]

theorem reportThen {m : Parse PUnit} (hm : Parses P m fun _ _ => False) {f : PUnit → Parse β}
    {P' : State → Prop} (hf : Parses P' (f ⟨⟩) R) : Parses P (m >>= f) R :=
  hm.bind fun _ => of_false hf

theorem expect [Stable P] (expected : TokenKind) : Parses P (expect expected) fun b s => b = true ∧ P s := by
  refine peek.bind fun found => ?_
  split
  · exact pure fun _ hs => ⟨rfl, hs⟩
  · exact (reportHere _ (Q := fun _ _ => False)).bind fun _ => pure fun _ hs => hs.elim

theorem expectLineEnd [Stable P] : Parses P expectLineEnd fun _ => P := by
  refine peek.bind fun b => ?_
  split
  · exact pure fun _ => id
  · exact peek.bind fun _ => reportHere _

theorem update {f : State → State} {σ : State} {os : List Occurrence} (hf : State.IsUpdate f) :
    Parses (Reading σ os) (modify f) fun _ s =>
      (∀ o ∈ os, σ.scopes.Refers o) ∧ Reading (f (σ.mark os)) [] s :=
  step hf.problems fun _ => Reading.update hf

theorem become {f : State → State} {σ : State} (hf : State.IsUpdate f) :
    Parses (Reading σ []) (modify f) fun _ => Reading (f σ) [] :=
  (update hf).post fun _ _ => And.right

theorem forM {f : γ → Parse PUnit} (hf : ∀ c, Parses P (f c) fun _ => P) (l : List γ) :
    Parses P (l.forM f) fun _ => P := by
  induction l with
  | nil => exact pure fun _ => id
  | cons c l ih => exact (hf c).bind fun _ => ih

end Parses

/-! ### Attempts that have a result -/

/-- If `m` ends without problems, there were none before, and it has a result; `Q` holds of it if `P`
did before. -/
def Tries (P : State → Prop) (m : Attempt α) (Q : α → State → Prop) : Prop :=
  Parses P m.run fun r s => ∃ a, r = some a ∧ Q a s

namespace Tries
variable {m : Attempt α}

theorem pure {a : α} (h : ∀ s, P s → Q a s) : Tries P (pure a) Q :=
  Parses.pure fun s hs => ⟨a, rfl, h s hs⟩

theorem bind {f : α → Attempt β} (hm : Tries P m Q) (hf : ∀ a, Tries (Q a) (f a) R) :
    Tries P (m >>= f) R := by
  unfold Tries
  rw [OptionT.run_bind]
  refine Parses.bind hm fun r => ?_
  cases r with
  | none => exact Parses.pure fun s hs => by obtain ⟨a, ha, -⟩ := hs; cases ha
  | some a => exact (hf a).pre fun s hs => by obtain ⟨b, hb, h⟩ := hs; cases hb; exact h

theorem lift {m : Parse α} (hm : Parses P m Q) : Tries P (liftM m) Q :=
  Parses.lift hm fun a _ h => ⟨a, rfl, h⟩

theorem conseq {P' : State → Prop} (hm : Tries P m Q) (hP : ∀ s, P' s → P s)
    (hQ : ∀ a s, Q a s → Q' a s) : Tries P' m Q' :=
  Parses.conseq hm hP fun _ s ⟨a, ha, h⟩ => ⟨a, ha, hQ a s h⟩

theorem pre {I : State → Prop} (hm : Tries P m Q) (h : ∀ s, I s → P s) : Tries I m Q :=
  hm.conseq h fun _ _ => id

theorem post (hm : Tries P m Q) (h : ∀ a s, Q a s → Q' a s) : Tries P m Q' :=
  hm.conseq (fun _ => id) h

theorem frame {φ : Prop} (hm : Tries P m Q) : Tries (fun s => φ ∧ P s) m fun a s => φ ∧ Q a s :=
  Parses.post (Parses.frame hm) fun _ _ ⟨hφ, a, ha, h⟩ => ⟨a, ha, hφ, h⟩

theorem of_false (hm : Tries P m Q) : Tries (fun _ => False) m Q' :=
  Parses.of_false hm

theorem move [Stable P] {f : State → State} (hf : ∀ s : State, s.Alike (f s)) :
    Tries P (liftM (modify f : Parse PUnit)) fun _ => P :=
  lift (Parses.move hf)

theorem peek {f : State → α} : Tries P (liftM (return f (← get) : Parse α)) fun _ => P :=
  lift Parses.peek

theorem get : Tries P (liftM (get : Parse State)) fun _ => P :=
  lift Parses.get

theorem failure (h : ∀ s, ¬ P s) : Tries P (failure : Attempt α) Q :=
  Parses.pure fun s hs => absurd hs (h s)

theorem failAt (token : Token) (problem : Problem) : Tries P (failAt token problem) Q :=
  (lift (Parses.reportAt token problem (Q := fun _ _ => False))).bind fun _ => failure fun _ => id

theorem failAtBind (token : Token) (problem : Problem) {f : α → Attempt β} :
    Tries P (Parsing.failAt token problem >>= f) R := by
  unfold Parsing.failAt
  rw [bind_assoc]
  exact (lift (Parses.reportAt token problem (Q := fun _ _ => False))).bind fun _ => failure fun _ => id

theorem fail (problem : Problem) : Tries P (fail problem) Q :=
  (lift (Parses.reportHere problem (Q := fun _ _ => False))).bind fun _ => failure fun _ => id

theorem failThen {P' : State → Prop} {f : α → Attempt β} (hm : Tries P m fun _ _ => False)
    (hf : ∀ a, Tries P' (f a) R) :
    Tries P (m >>= f) R :=
  hm.bind fun a => of_false (hf a)

theorem ifFail {c : Prop} [Decidable c] {fails : Attempt γ} {rest : Attempt α}
    (hfails : Tries P fails fun _ _ => False) (hrest : Tries P rest Q) :
    Tries P (if c then fails >>= fun _ => rest else rest) Q := by
  split
  · exact failThen hfails fun _ => hrest
  · exact hrest

theorem unlessFail {c : Prop} [Decidable c] {fails : Attempt γ} {rest : Attempt α}
    (hfails : ¬ c → Tries P fails fun _ _ => False) (hrest : Tries P rest Q) :
    Tries P (if c then rest else fails >>= fun _ => rest) Q := by
  split
  · exact hrest
  · next hc => exact failThen (hfails hc) fun _ => hrest

theorem require [Stable P] (expected : TokenKind) : Tries P (require expected) fun _ => P := by
  refine (lift (Parses.expect expected)).bind fun b => ?_
  split
  · exact pure fun _ => And.right
  · next hb => exact failure fun s hs => hb hs.1

theorem orNextLine (hm : Tries P m Q) : Tries P (orNextLine m) Q := by
  refine Parses.bind hm fun r => ?_
  cases r with
  | none =>
    have hnone : Parses (fun _ => False) (do nextLine; return (none : Option α)) fun r s =>
        ∃ a, r = some a ∧ Q a s := (Parses.move State.alike_nextLine).bind fun _ =>
        Parses.pure fun _ => False.elim
    exact hnone.pre fun s ⟨a, ha, _⟩ => by cases ha
  | some a => exact Parses.pure fun _ => id

theorem forIn {f : γ → PUnit → Attempt (ForInStep PUnit)}
    (hf : ∀ c, Tries P (f c ⟨⟩) fun r s => r = .yield ⟨⟩ ∧ P s) (l : List γ) :
    Tries P (forIn l PUnit.unit f) fun _ => P := by
  induction l with
  | nil => exact pure fun _ => id
  | cons c l ih =>
    rw [List.forIn_cons]
    refine (hf c).bind fun r => ?_
    cases r with
    | done => exact pure fun _ hs => by cases hs.1
    | yield => exact ih.pre fun _ => And.right

end Tries

/-! ### Constructs in which blanks separate or not -/

theorem Reading.pushSpacing {σ : State} {os : List Occurrence} {s : State} (h : Reading σ os s)
    (spaced : Bool) : Reading (σ.pushSpacing spaced) os (s.pushSpacing spaced) :=
  ⟨⟨h.inRange.pos_le, h.inRange.eof⟩, congrArg (·.pushSpacing spaced) h.site, h.refers⟩

theorem Reading.popSpacing {σ : State} {os : List Occurrence} {spaced : Bool} {s : State}
    (h : Reading (σ.pushSpacing spaced) os s) : Reading σ os s.popSpacing := by
  have htail : Reading σ os { s with spacing := s.spacing.tail } := by
    refine ⟨⟨h.inRange.pos_le, h.inRange.eof⟩, ?_, h.refers⟩
    exact congrArg (fun s : State => { s with spacing := s.spacing.tail }) h.site
  unfold State.popSpacing
  dsimp only
  split
  · exact Stable.of_alike (State.alike_advance _) htail
  · exact htail

/-! ### Attempts by what they read -/

/-- Where the occurrences `vs` have been read last, the attempt goes on, and then those of its result
have. -/
def Extends (vs : List Occurrence) (us : α → List Occurrence) (m : Attempt α) : Prop :=
  ∀ (σ : State) (os : List Occurrence), Tries (Reading σ (os ++ vs)) m fun a => Reading σ (os ++ us a)

namespace Extends
variable {vs : List Occurrence} {us : α → List Occurrence} {ws : β → List Occurrence} {m : Attempt α}

theorem pure {a : α} (h : us a = vs) : Extends vs us (pure a) :=
  fun _ _ => .pure fun _ hs => h ▸ hs

theorem bind {f : α → Attempt β} (hm : Extends vs us m) (hf : ∀ a, Extends (us a) ws (f a)) :
    Extends vs ws (m >>= f) :=
  fun σ os => (hm σ os).bind fun a => hf a σ os

/-- What has been read before is read before. -/
theorem under (hm : Extends [] us m) (vs : List Occurrence) : Extends vs (fun a => vs ++ us a) m :=
  fun σ os => by simpa [List.append_assoc] using hm σ (os ++ vs)

theorem lift {m : Parse α} (hm : ∀ (P : State → Prop) [Stable P], Parses P m fun _ => P) :
    Extends vs (fun _ => vs) (liftM m) :=
  fun _ _ => .lift (hm _)

theorem move {f : State → State} (hf : ∀ s : State, s.Alike (f s)) :
    Extends vs (fun _ => vs) (liftM (modify f : Parse PUnit)) :=
  lift fun _ => Parses.move hf

theorem advance : Extends vs (fun _ => vs) (liftM advance) := move State.alike_advance

theorem advanceOne : Extends vs (fun _ => vs) (liftM advanceOne) := move State.alike_advanceOne

theorem nextLine : Extends vs (fun _ => vs) (liftM nextLine) := move State.alike_nextLine

theorem skipBlank : Extends vs (fun _ => vs) (liftM skipBlank) := move State.alike_skipBlank

theorem expectLineEnd : Extends vs (fun _ => vs) (liftM expectLineEnd) := lift fun _ => Parses.expectLineEnd

theorem peek {f : State → α} : Extends vs (fun _ => vs) (liftM (return f (← get) : Parse α)) :=
  lift fun _ => Parses.peek

theorem get : Extends vs (fun _ => vs) (liftM (get : Parse State)) := lift fun _ => Parses.get

theorem failAt (token : Token) (problem : Problem) : Extends vs us (failAt token problem) :=
  fun _ _ => .failAt token problem

theorem fail (problem : Problem) : Extends vs us (fail problem) :=
  fun _ _ => .fail problem

theorem ifFail {c : Prop} [Decidable c] {fails : Attempt γ} {rest : Attempt α}
    (hfails : ∀ P : State → Prop, Tries P fails fun _ _ => False) (hrest : Extends vs us rest) :
    Extends vs us (if c then fails >>= fun _ => rest else rest) :=
  fun σ os => .ifFail (hfails _) (hrest σ os)

theorem unlessFail {c : Prop} [Decidable c] {fails : Attempt γ} {rest : Attempt α}
    (hfails : ∀ P : State → Prop, Tries P fails fun _ _ => False) (hrest : Extends vs us rest) :
    Extends vs us (if c then rest else fails >>= fun _ => rest) :=
  fun σ os => .unlessFail (fun _ => hfails _) (hrest σ os)

theorem require (expected : TokenKind) : Extends vs (fun _ => vs) (require expected) :=
  fun _ _ => .require expected

theorem orNextLine (hm : Extends vs us m) : Extends vs us (orNextLine m) :=
  fun σ os => .orNextLine (hm σ os)

theorem withSpacing (spaced : Bool) (hm : Extends vs us m) : Extends vs us (withSpacing spaced m) := by
  intro σ os
  have hpush : Parses (Reading σ (os ++ vs)) (modify (·.pushSpacing spaced)) fun _ =>
      Reading (σ.pushSpacing spaced) (os ++ vs) := .step (fun _ => rfl) fun s hs => hs.pushSpacing spaced
  refine hpush.bind fun _ => Parses.bind (hm _ os) fun r => ?_
  refine Parses.bind (Q := fun _ s => ∃ a, r = some a ∧ Reading σ (os ++ us a) s) ?_ fun _ =>
    Parses.pure fun _ => id
  refine .step State.moves_popSpacing.isMove.problems fun s hs => ?_
  obtain ⟨a, ha, h⟩ := hs
  exact ⟨a, ha, h.popSpacing⟩

theorem forIn {f : γ → PUnit → Attempt (ForInStep PUnit)}
    (hf : ∀ (P : State → Prop) [Stable P] (c : γ), Tries P (f c ⟨⟩) fun r s => r = .yield ⟨⟩ ∧ P s)
    (l : List γ) : Extends vs (fun _ => vs) (forIn l PUnit.unit f) :=
  fun _ _ => .forIn (hf _) l

end Extends

end

end Parsing

end TinyScript
