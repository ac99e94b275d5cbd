import TinyScript.Parsing.Type
import TinyScript.Proofs.Parsing.Clean
import TinyScript.Proofs.Typing.Types

/-!
# The steps of a parser

What the steps that all parsers are made of do to what is declared, and what they report.
-/

namespace TinyScript.Parsing

/-! ### Moves -/

namespace State

/-- A step that only changes the place, and which constructs are open there. -/
def Moves (f : State → State) : Prop :=
  ∀ s, ∃ pos spacing, f s = { s with pos, spacing }

variable {f g : State → State}

theorem Moves.comp (hf : Moves f) (hg : Moves g) : Moves fun s => f (g s) := by
  intro s
  obtain ⟨pos, spacing, hg⟩ := hg s
  obtain ⟨pos', spacing', hf⟩ := hf (g s)
  rw [hg] at hf
  exact ⟨pos', spacing', (congrArg f hg).trans hf⟩

theorem Moves.ite {c : State → Prop} [DecidablePred c] (hf : Moves f) (hg : Moves g) :
    Moves fun s => if c s then f s else g s := by
  intro s
  dsimp only
  split
  · exact hf s
  · exact hg s

theorem Moves.id : Moves fun s => s := fun s => ⟨s.pos, s.spacing, rfl⟩

theorem moves_advanceOne : Moves advanceOne :=
  .ite (fun s => ⟨s.pos + 1, s.spacing, rfl⟩) .id

theorem moves_skipBlank : Moves skipBlank :=
  .ite moves_advanceOne .id

theorem moves_advance : Moves advance := by
  have hskip : Moves fun s => if s.isSpaced then s else s.skipBlank := .ite .id moves_skipBlank
  exact hskip.comp moves_advanceOne

theorem moves_toLineEnd : Moves toLineEnd := fun s => ⟨_, s.spacing, rfl⟩

theorem moves_nextLine : Moves nextLine := by
  have hnext : Moves fun s => if s.cur.kind = .nl then s.advance else s := .ite moves_advance .id
  exact hnext.comp moves_toLineEnd

theorem moves_pushSpacing (spaced : Bool) : Moves (·.pushSpacing spaced) := fun s => ⟨s.pos, _, rfl⟩

theorem moves_popSpacing : Moves popSpacing := by
  have hskip : Moves fun s => if !s.isSpaced && s.cur.kind = .ws then s.advance else s :=
    .ite moves_advance .id
  exact hskip.comp fun s => ⟨s.pos, s.spacing.tail, rfl⟩

/-- A move reports nothing and declares nothing. -/
structure IsMove (f : State → State) : Prop where
  problems : ∀ s, (f s).problems = s.problems
  outline : ∀ s, (f s).outline = s.outline

theorem Moves.isMove (hf : Moves f) : IsMove f := by
  refine ⟨fun s => ?_, fun s => ?_⟩
  all_goals
    obtain ⟨pos, spacing, h⟩ := hf s
    simp only [h, outline]

end State

section
variable {α : Type} {φ : Prop} {o : Outline} {A : α → Prop}

namespace Keeps

theorem move {f : State → State} (hf : State.Moves f) : Keeps φ o (modify f) fun _ => True :=
  step hf.isMove.problems hf.isMove.outline

/-- A look at the state. -/
theorem look {f : State → α} : Keeps φ o (return f (← MonadState.get)) fun a =>
    ∃ s : State, s.outline = o ∧ f s = a :=
  state.bind fun s => pure fun h => ⟨s, h.2, rfl⟩

theorem reportAt (token : Token) (problem : Problem) {A : Unit → Prop} :
    Keeps φ o (reportAt token problem) A :=
  report fun s => by simp [State.report]

theorem reportHere (problem : Problem) {A : Unit → Prop} : Keeps φ o (Parsing.report problem) A :=
  report fun s => by simp [State.report]

theorem expect (expected : TokenKind) : Keeps φ o (expect expected) fun b => b = true := by
  refine look.bind fun found => ?_
  split
  · exact pure fun _ => rfl
  · exact (reportHere _ (A := fun _ => False)).bind fun _ => pure fun h => h.2.elim

theorem expectLineEnd : Keeps φ o expectLineEnd fun _ => True := by
  refine look.bind fun b => ?_
  split
  · exact pure fun _ => trivial
  · exact look.bind fun _ => reportHere _

theorem forM {β : Type} {f : β → Parse PUnit} (hf : ∀ b, Keeps True o (f b) fun _ => True)
    (l : List β) : Keeps φ o (l.forM f) fun _ => True := by
  induction l generalizing φ with
  | nil => exact pure fun _ => trivial
  | cons b l ih => exact (hf b).known.bind fun _ => ih

/-- Nothing is read without problems after a failure. -/
theorem failAtBind (token : Token) (problem : Problem) {β : Type} {f : α → Attempt β}
    {B : Option β → Prop} : Keeps φ o (failAt token problem >>= f).run B := by
  unfold failAt
  rw [bind_assoc]
  exact (reportAt token problem (A := fun _ => False)).liftThen fun _ => Parses.pure fun _ h => h.1.2.elim

/-- A report unless a condition holds. -/
theorem unlessReport {c : Prop} [Decidable c] (token : Token) (problem : Problem) :
    Keeps φ o (unless c do Parsing.reportAt token problem) fun _ => c := by
  split
  · next h => exact pure fun _ => h
  · exact reportAt token problem

end Keeps

namespace Reads

theorem move {f : State → State} (hf : State.Moves f) :
    Reads φ o (liftM (modify f : Parse PUnit)) fun _ => True :=
  lift (Keeps.move hf)

theorem look {f : State → α} : Reads φ o (liftM (return f (← MonadState.get) : Parse α)) fun a =>
    ∃ s : State, s.outline = o ∧ f s = a :=
  lift Keeps.look

theorem failAt (token : Token) (problem : Problem) : Reads φ o (failAt token problem) A :=
  (lift (Keeps.reportAt token problem (A := fun _ => False))).bind fun _ => failure

theorem fail (problem : Problem) : Reads φ o (fail problem) A :=
  (lift (Keeps.reportHere problem (A := fun _ => False))).bind fun _ => failure

/-- What follows is only reached if a condition does not hold. -/
theorem ifFail {c : Prop} [Decidable c] {β : Type} {B : β → Prop} {fails : Attempt α} {rest : Attempt β}
    (hfails : Reads φ o fails fun _ => False) (hrest : Reads (φ ∧ ¬c) o rest B) :
    Reads φ o (if c then fails >>= fun _ => rest else rest) B := by
  split
  · exact hfails.bind fun _ => hrest.weaken (fun h => h.2.elim) fun _ _ => id
  · next hc => exact hrest.weaken (fun h => ⟨h, hc⟩) fun _ _ => id

/-- What follows is only reached if a condition holds. -/
theorem unlessFail {c : Prop} [Decidable c] {β : Type} {B : β → Prop} {fails : Attempt α}
    {rest : Attempt β} (hfails : Reads φ o fails fun _ => False) (hrest : Reads (φ ∧ c) o rest B) :
    Reads φ o (if c then rest else fails >>= fun _ => rest) B := by
  split
  · next hc => exact hrest.weaken (fun h => ⟨h, hc⟩) fun _ _ => id
  · exact hfails.bind fun _ => hrest.weaken (fun h => h.2.elim) fun _ _ => id

/-- What follows is only reached if a condition does not hold, and may declare something. -/
theorem ifFailThen {c : Prop} [Decidable c] {β : Type} {R : Option β → State → Prop}
    {fails : Attempt α} {rest : Attempt β} (hfails : Reads φ o fails fun _ => False)
    (hnone : ∀ s, φ → s.outline = o → R none s) (hrest : Parses (At (φ ∧ ¬c) o) rest.run R) :
    Parses (At φ o) (if c then fails >>= fun _ => rest else rest).run R := by
  split
  · refine hfails.andThen hnone fun _ => hrest.conseq (fun s hs => hs.1.2.elim) fun _ _ => id
  · next hc => exact hrest.conseq (fun s hs => ⟨⟨hs.1, hc⟩, hs.2⟩) fun _ _ => id

theorem require (expected : TokenKind) : Reads φ o (require expected) fun _ => True := by
  refine (lift (Keeps.expect expected)).bind fun b => ?_
  split
  · exact pure fun _ => trivial
  · exact failure

theorem withSpacing (spaced : Bool) {m : Attempt α} (hm : Reads φ o m A) :
    Reads φ o (withSpacing spaced m) A := by
  refine Keeps.bind (Keeps.move (State.moves_pushSpacing spaced)) fun _ => ?_
  refine Keeps.bind (hm.weaken And.left fun _ _ => id) fun r => ?_
  refine (Keeps.move State.moves_popSpacing).bind fun _ => Keeps.pure fun h => h.1.2

theorem orNextLine {m : Attempt α} (hm : Reads φ o m A) : Reads φ o (orNextLine m) A := by
  refine Keeps.bind hm fun r => ?_
  dsimp only
  split
  · exact (Keeps.move State.moves_nextLine).bind fun _ => Keeps.pure fun h => h.1.2
  · exact Keeps.pure fun h => h.2

/-- Every round of a loop checks `c`. -/
theorem forIn {β : Type} {c : β → Prop} {f : β → PUnit → Attempt (ForInStep PUnit)}
    (hf : ∀ b, Reads True o (f b ⟨⟩) fun r => r = .yield ⟨⟩ ∧ c b) (l : List β) :
    Reads φ o (forIn l PUnit.unit f) fun _ => ∀ b ∈ l, c b := by
  induction l generalizing φ with
  | nil => exact pure fun _ b hb => by cases hb
  | cons b l ih =>
    rw [List.forIn_cons]
    refine (hf b).known.bind fun r => ?_
    cases r with
    | done => exact pure fun h => by cases h.2.1
    | yield => exact ih.weaken id fun _ h hl => List.forall_mem_cons.2 ⟨h.2.2, hl⟩

end Reads

/-! ### Types and variables -/

/-- What is read as a type is one that a program can write, or illegal. -/
theorem typeWithin_keeps (fuel : Nat) :
    Keeps φ o (typeWithin fuel) fun t => t.kind = .illegal ∨ t.settled := by
  induction fuel generalizing φ with
  | zero => exact .pure fun _ => .inl rfl
  | succ fuel ih =>
    have hcomposite {φ : Prop} (close : TokenKind) (f : Ty → Ty)
        (hf : ∀ t : Ty, t.settled → (f t).settled) : Keeps φ o (do
          if (← kind) ≠ close then return .illegal
          advance
          let elem ← typeWithin fuel
          return if elem.kind = .illegal then .illegal else f elem)
          fun t => t.kind = .illegal ∨ t.settled := by
      refine Keeps.look.bind fun k => ?_
      split
      · exact .pure fun _ => .inl rfl
      · refine (Keeps.move State.moves_advance).bind fun _ => ih.bind fun t => .pure fun h => ?_
        split
        · exact .inl rfl
        · next hne => exact .inr (hf t (h.2.resolve_left hne))
    refine Keeps.look.bind fun first => (Keeps.move State.moves_advance).bind fun _ => ?_
    split
    · exact .pure fun _ => .inr rfl
    · exact .pure fun _ => .inr rfl
    · exact .pure fun _ => .inr rfl
    · exact .pure fun _ => .inr rfl
    · exact hcomposite .rBracket .array fun t ht => by simpa [Ty.array, Ty.settled, Kind.isComposite] using ht
    · exact hcomposite .rCurly .map fun t ht => by simpa [Ty.map, Ty.settled, Kind.isComposite] using ht
    · exact .pure fun _ => .inl rfl

theorem type_keeps : Keeps φ o type fun t => t.kind = .illegal ∨ t.settled :=
  Keeps.state.bind fun _ => typeWithin_keeps _

theorem run_readVar? (name : String) (s : State) : (readVar? name).run s = match s.scopes.read? name with
    | none => (none, s)
    | some (v, scopes) => (some v, { s with scopes }) := by
  unfold readVar?
  simp only [bind, StateT.bind, get, getThe, MonadStateOf.get, StateT.get, StateT.run, pure]
  cases s.scopes.read? name <;> rfl

/-- A variable that is read is in scope. -/
theorem readVar?_keeps (name : String) : Keeps φ o (readVar? name) fun r =>
    ∀ v, r = some v → name ≠ "_" ∧ v.name = name ∧ o.scopes.ty? name = some v.ty := by
  intro s hs hclean
  rw [run_readVar?] at hclean ⊢
  cases hread : s.scopes.read? name with
  | none =>
    rw [hread] at hclean
    exact ⟨hclean, (hs hclean).1, (hs hclean).2, fun v hv => by cases hv⟩
  | some r =>
    rw [hread] at hclean
    obtain ⟨hφ, ho⟩ := hs hclean
    obtain ⟨hname, hvar, hty, hasRead⟩ := Scopes.of_read? hread
    subst ho
    refine ⟨hclean, hφ, ?_, fun v hv => ?_⟩
    · simp [State.outline, hasRead]
    · cases hv
      exact ⟨hname, hvar, by simpa [State.outline] using hty⟩

end

end TinyScript.Parsing
