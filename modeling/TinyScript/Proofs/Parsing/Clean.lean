import TinyScript.Parsing.State
import TinyScript.Proofs.Parsing.Scopes

/-!
# Parsers that end without problems

A parser reports problems and goes on, so what it reads is only right if there are no problems in the
end. `Parses` says what holds then: as problems are never taken back, the parser began without
problems as well. Most parsers leave what is declared alone (`Keeps`, and `Reads` for attempts). What
is known when they begin is carried along as a proposition, because it is known only if there are no
problems yet.
-/

namespace TinyScript.Parsing

/-- There are no problems so far. -/
def State.Clean (s : State) : Prop :=
  s.problems = #[]

/-- What is declared at a place in the source. -/
structure Outline where
  prelude : Prelude
  funcs : List Signature
  declared : Array Function
  handlers : Array Handler
  /-- The open scopes, with all variables taken as read. -/
  scopes : Scopes

def State.outline (s : State) : Outline :=
  ⟨s.prelude, s.funcs, s.declared, s.handlers, s.scopes.asRead⟩

namespace Outline

/-- The signature of a known function. -/
def func? (o : Outline) (name : String) : Option Signature :=
  o.funcs.find? (·.name == name)

end Outline

section
variable {α β : Type} {P P' : State → Prop} {Q Q' : α → State → Prop} {R : β → State → Prop}

/-- If `m` ends without problems, there were none before, and `Q` holds if `P` did. -/
def Parses (P : State → Prop) (m : Parse α) (Q : α → State → Prop) : Prop :=
  ∀ s, (s.Clean → P s) → (m.run s).2.Clean → s.Clean ∧ Q (m.run s).1 (m.run s).2

namespace Parses
variable {m : Parse α}

theorem pure {a : α} (h : ∀ s, P s → Q a s) : Parses P (pure a) Q :=
  fun _ hs hclean => ⟨hclean, h _ (hs hclean)⟩

theorem bind {f : α → Parse β} (hm : Parses P m Q) (hf : ∀ a, Parses (Q a) (f a) R) :
    Parses P (m >>= f) R := by
  intro s hs hclean
  obtain ⟨hclean', hR⟩ := hf (m.run s).1 (m.run s).2 (fun h => (hm s hs h).2) hclean
  exact ⟨(hm s hs hclean').1, hR⟩

theorem liftBind {f : α → Attempt β} {R : Option β → State → Prop} (hm : Parses P m Q)
    (hf : ∀ a, Parses (Q a) (f a).run R) : Parses P (liftM m >>= f).run R := by
  have hrun : (liftM m >>= f).run = m >>= fun a => (f a).run := by
    funext s
    rfl
  rw [hrun]
  exact hm.bind hf

theorem lift {R : Option α → State → Prop} (hm : Parses P m Q) (hR : ∀ a s, Q a s → R (some a) s) :
    Parses P (liftM m : Attempt α).run R := by
  have hrun : (liftM m : Attempt α).run = m >>= fun a => Pure.pure (some a) := rfl
  rw [hrun]
  exact hm.bind fun a => pure (hR a)

theorem conseq (hm : Parses P m Q) (hP : ∀ s, P' s → P s) (hQ : ∀ a s, Q a s → Q' a s) :
    Parses P' m Q' := by
  intro s hs hclean
  obtain ⟨hclean', h⟩ := hm s (fun h => hP s (hs h)) hclean
  exact ⟨hclean', hQ _ _ h⟩

/-- What is known stays known. -/
theorem frame {φ : Prop} (hm : Parses P m Q) :
    Parses (fun s => φ ∧ P s) m fun a s => φ ∧ Q a s := by
  intro s hs hclean
  obtain ⟨hclean', h⟩ := hm s (fun h => (hs h).2) hclean
  exact ⟨hclean', (hs hclean').1, h⟩

theorem state {Q : State → State → Prop} (h : ∀ s, P s → Q s s) : Parses P get Q :=
  fun _ hs hclean => ⟨hclean, h _ (hs hclean)⟩

/-- A report is a problem. -/
theorem report {f : State → State} {Q : PUnit → State → Prop} (hf : ∀ s, (f s).problems ≠ #[]) :
    Parses P (modify f) Q :=
  fun s _ hclean => absurd hclean (hf s)

theorem step {f : State → State} {Q : PUnit → State → Prop}
    (hf : ∀ s, (f s).problems = s.problems) (h : ∀ s, P s → Q ⟨⟩ (f s)) : Parses P (modify f) Q := by
  intro s hs hclean
  have hclean' : s.Clean := (hf s).symm.trans hclean
  exact ⟨hclean', h s (hs hclean')⟩

end Parses

/-! ### Parsers that declare nothing -/

variable {φ ψ : Prop} {o : Outline} {A : α → Prop} {B : β → Prop}

/-- At a place where `o` is declared and `φ` is known. -/
abbrev At (φ : Prop) (o : Outline) (s : State) : Prop :=
  φ ∧ s.outline = o

/-- If `m` ends without problems, nothing is declared by it, and the result is in `A`. -/
def Keeps (φ : Prop) (o : Outline) (m : Parse α) (A : α → Prop) : Prop :=
  Parses (At φ o) m fun a s => φ ∧ s.outline = o ∧ A a

namespace Keeps
variable {m : Parse α}

theorem pure {a : α} (h : φ → A a) : Keeps φ o (pure a) A :=
  Parses.pure fun _ hs => ⟨hs.1, hs.2, h hs.1⟩

theorem bind {f : α → Parse β} (hm : Keeps φ o m A) (hf : ∀ a, Keeps (φ ∧ A a) o (f a) B) :
    Keeps φ o (m >>= f) B := by
  refine Parses.bind hm fun a => ?_
  exact (hf a).conseq (fun s hs => ⟨⟨hs.1, hs.2.2⟩, hs.2.1⟩) fun b s hs => ⟨hs.1.1, hs.2⟩

/-- More can be known before, and less after. -/
theorem weaken (hm : Keeps φ o m A) (hφ : ψ → φ) {A' : α → Prop} (hA : ∀ a, ψ → A a → A' a) :
    Keeps ψ o m A' := by
  refine (Parses.frame (φ := ψ) hm).conseq (fun s hs => ⟨hs.1, hφ hs.1, hs.2⟩) fun a s hs => ?_
  exact ⟨hs.1, hs.2.2.1, hA a hs.1 hs.2.2.2⟩

/-- Goes on with a parser that may declare something. -/
theorem andThen {f : α → Parse β} {R : β → State → Prop} (hm : Keeps φ o m A)
    (hf : ∀ a, Parses (At (φ ∧ A a) o) (f a) R) :
    Parses (At φ o) (m >>= f) R := by
  refine Parses.bind hm fun a => ?_
  exact (hf a).conseq (fun s hs => ⟨⟨hs.1, hs.2.2⟩, hs.2.1⟩) fun _ _ => id

/-- Goes on with an attempt that may declare something. -/
theorem liftThen {f : α → Attempt β} {R : Option β → State → Prop} (hm : Keeps φ o m A)
    (hf : ∀ a, Parses (At (φ ∧ A a) o) (f a).run R) : Parses (At φ o) (liftM m >>= f).run R := by
  refine Parses.liftBind hm fun a => ?_
  exact (hf a).conseq (fun s hs => ⟨⟨hs.1, hs.2.2⟩, hs.2.1⟩) fun _ _ => id

/-- A parser that needs to know nothing. -/
theorem known (hm : Keeps True o m A) : Keeps φ o m A :=
  hm.weaken (fun _ => trivial) fun _ _ => id

theorem state : Keeps φ o get fun s => s.outline = o :=
  Parses.state fun _ hs => ⟨hs.1, hs.2, hs.2⟩

theorem report {f : State → State} (hf : ∀ s, (f s).problems ≠ #[]) {A : PUnit → Prop} :
    Keeps φ o (modify f) A :=
  Parses.report hf

/-- A step of the parser that declares nothing. -/
theorem step {f : State → State} (hf : ∀ s, (f s).problems = s.problems)
    (ho : ∀ s, (f s).outline = s.outline) : Keeps φ o (modify f) fun _ => True :=
  Parses.step hf fun s hs => ⟨hs.1, (ho s).trans hs.2, trivial⟩

end Keeps

/-- If the attempt `m` ends without problems, nothing is declared by it, and the result is in `A` if
there is one. -/
def Reads (φ : Prop) (o : Outline) (m : Attempt α) (A : α → Prop) : Prop :=
  Keeps φ o m.run fun r => ∀ a, r = some a → A a

namespace Reads
variable {m : Attempt α}

theorem pure {a : α} (h : φ → A a) : Reads φ o (pure a) A :=
  Keeps.pure fun hφ _ ha => Option.some.inj ha ▸ h hφ

theorem bind {f : α → Attempt β} (hm : Reads φ o m A) (hf : ∀ a, Reads (φ ∧ A a) o (f a) B) :
    Reads φ o (m >>= f) B := by
  show Keeps φ o (m.run >>= fun r => match r with
    | some a => (f a).run
    | none => Pure.pure none) _
  refine Keeps.bind hm fun r => ?_
  cases r with
  | none => exact Keeps.pure fun _ b hb => by cases hb
  | some a => exact (hf a).weaken (fun hφ => ⟨hφ.1, hφ.2 a rfl⟩) fun _ _ => id

theorem lift {m : Parse α} (hm : Keeps φ o m A) : Reads φ o (liftM m) A := by
  refine Keeps.bind (f := fun a => Pure.pure (some a)) hm fun a => ?_
  exact Keeps.pure fun hφ b hb => Option.some.inj hb ▸ hφ.2

theorem map {f : α → β} (hm : Reads φ o m A) (hf : ∀ a, A a → B (f a)) : Reads φ o (f <$> m) B := by
  rw [map_eq_pure_bind]
  exact hm.bind fun a => pure fun h => hf a h.2

theorem weaken (hm : Reads φ o m A) (hφ : ψ → φ) {A' : α → Prop} (hA : ∀ a, ψ → A a → A' a) :
    Reads ψ o m A' :=
  Keeps.weaken hm hφ fun _ hψ h a ha => hA a hψ (h a ha)

theorem known (hm : Reads True o m A) : Reads φ o m A :=
  hm.weaken (fun _ => trivial) fun _ _ => id

theorem failure : Reads φ o failure A :=
  Keeps.pure fun _ _ ha => by cases ha

/-- Goes on with an attempt that may declare something. -/
theorem andThen {f : α → Attempt β} {R : Option β → State → Prop} (hm : Reads φ o m A)
    (hnone : ∀ s, φ → s.outline = o → R none s)
    (hf : ∀ a, Parses (At (φ ∧ A a) o) (f a).run R) :
    Parses (At φ o) (m >>= f).run R := by
  show Parses _ (m.run >>= fun r => match r with
    | some a => (f a).run
    | none => Pure.pure none) _
  refine Keeps.andThen hm fun r => ?_
  cases r with
  | none => exact Parses.pure fun s hs => hnone s hs.1.1 hs.2
  | some a => exact (hf a).conseq (fun s hs => ⟨⟨hs.1.1, hs.1.2 a rfl⟩, hs.2⟩) fun _ _ => id

theorem mk {m : Parse (Option α)} (hm : Keeps φ o m fun r => ∀ a, r = some a → A a) :
    Reads φ o (OptionT.mk m) A :=
  hm

/-- The result of an attempt, if there is one. -/
theorem run (hm : Reads φ o m A) : Keeps φ o m.run fun r => ∀ a, r = some a → A a :=
  hm

end Reads

end

end TinyScript.Parsing
