import TinyScript.Proofs.Eval.Compositional
import TinyScript.Proofs.Store

/-!
# Arrays in runs of programs

No evaluation changes the length of an array, however it ends (`Eval.KeepsLengths`), and so neither does
anything that a session does. A loop over an array reads the array as it is when the turn of each element
comes; because its length stays, the loop has as many rounds as there were elements when it started
(`Stmt.each_laps`).
-/

namespace TinyScript

namespace Eval

/-- An evaluation keeps the lengths of arrays, however it ends. -/
def KeepsLengths (α : Type) (m : Eval α) : Prop :=
  ∀ σ : Machine, σ.world.store.SameLengths (m.run.run σ).2.world.store

namespace KeepsLengths

variable {α β : Type} {m : Eval α}

/-- A step that leaves storage alone. -/
theorem still (hm : ∀ σ, (m.run.run σ).2.world.store = σ.world.store) : KeepsLengths α m := by
  intro σ
  rw [hm]
  exact .refl _

theorem bind {f : α → Eval β} (hm : KeepsLengths α m) (hf : ∀ a, KeepsLengths β (f a)) :
    KeepsLengths β (m >>= f) := by
  intro σ
  have hm := hm σ
  rw [run_bind]
  rcases hr : m.run.run σ with ⟨e | a, σ'⟩ <;> rw [hr] at hm
  · exact hm
  · exact hm.trans (hf a σ')

theorem located {token : Token} (hm : KeepsLengths α m) : KeepsLengths α (Eval.located token m) := by
  intro σ
  have hm := hm σ
  rw [run_located]
  rcases hr : m.run.run σ with ⟨(f | _) | a, σ'⟩ <;> rw [hr] at hm <;> exact hm

theorem compositional : Compositional KeepsLengths where
  pure _ := .still fun _ => rfl
  bind := .bind
  fail _ _ := .still fun _ => rfl
  outOfFuel := .still fun _ => rfl
  located := .located
  store := .still fun _ => rfl
  replaceElem ref i v σ := .setElem σ.world.store ref i v
  modifyMap ref f σ := .modifyMap σ.world.store ref f
  newArray elems _ σ := .newArray σ.world.store elems
  newMap pairs _ σ := .newMap σ.world.store pairs
  lookup name := .still fun σ => by rw [run_lookup]; split <;> rfl
  unknownFunction _ := .still fun _ => rfl
  noteError _ := .still fun _ => rfl
  ask _ := .still fun _ => rfl
  readLine := .still fun _ => rfl
  randomly _ := .still fun _ => rfl

theorem stmtCompositional : StmtCompositional KeepsLengths KeepsLengths where
  expr := compositional
  weaken := id
  bind := .bind
  located := .located
  tick := .still fun σ => by rw [run_tick]; split <;> rfl
  declare _ _ := .still fun _ => rfl
  assign name v := .still fun σ => by rw [run_assign]; split <;> rfl
  nested hm σ := hm { σ with frames := σ.frames.nest }
  inBody hm σ := hm { σ with frames := σ.frames.enterBody }

end KeepsLengths

end Eval

/-! ### Sessions -/

mutual

theorem Datum.sameLengths_toValue (s : Store Value) (d : Datum) : s.SameLengths (d.toValue s).2 := by
  match d with
  | .num _ | .str _ | .bool _ | .none => exact .refl s
  | .any inner => exact inner.sameLengths_toValue s
  | .array ty elems => exact (Datum.sameLengths_toValues s elems).trans (.newArray _ _)
  | .map ty pairs => exact (Datum.sameLengths_toPairs s .empty pairs).trans (.newMap _ _)

theorem Datum.sameLengths_toValues (s : Store Value) (ds : List Datum) :
    s.SameLengths (Datum.toValues s ds).2 := by
  match ds with
  | [] => exact .refl s
  | d :: ds => exact (d.sameLengths_toValue s).trans (Datum.sameLengths_toValues _ ds)

theorem Datum.sameLengths_toPairs (s : Store Value) (done : Pairs Value) (ds : List (String × Datum)) :
    s.SameLengths (Datum.toPairs s done ds).2 := by
  match ds with
  | [] => exact .refl s
  | (key, d) :: ds => exact (d.sameLengths_toValue s).trans (Datum.sameLengths_toPairs _ _ ds)

end

theorem Interpreter.sameLengths_run (i : Interpreter) (w : World) (source : String) (fuel : Nat) :
    w.store.SameLengths (i.run w source fuel).2.2.store := by
  unfold Interpreter.run
  split
  · exact .refl _
  · next p _ => exact Eval.KeepsLengths.stmtCompositional.program p fuel ⟨w, i.frames⟩

theorem Interpreter.sameLengths_handle (i : Interpreter) (w : World) (event : String)
    (params : List Value) (fuel : Nat) :
    w.store.SameLengths (i.handle w event params fuel).2.2.store := by
  obtain ⟨m, hm, hrun⟩ := Eval.KeepsLengths.stmtCompositional.handle i w event params fuel
  rw [hrun]
  exact hm ⟨w, i.frames⟩

/-- What a session becomes by running sources, handling events, forking interpreters and what the host
does in between. -/
inductive Session.Leads (s : Session) : Session → Prop where
  | refl : Leads s s
  | run {t : Session} (h : Leads s t) (n : Nat) (source : String) : Leads s (t.run n source).2
  | handle {t : Session} (h : Leads s t) (n : Nat) (event : String) (params : List Datum) :
    Leads s (t.handle n event params).2
  | fork {t : Session} (h : Leads s t) (n : Nat) : Leads s (t.fork n).2
  | setStopped {t : Session} (h : Leads s t) (stopped : Bool) : Leads s (t.setStopped stopped)
  | feed {t : Session} (h : Leads s t) (lines : List String) : Leads s (t.feed lines)
  | report {t : Session} (h : Leads s t) : Leads s t.report.2

theorem Session.Leads.sameLengths {s t : Session} (h : s.Leads t) :
    s.world.store.SameLengths t.world.store := by
  induction h with
  | refl => exact .refl _
  | @run t _ n source ih =>
    simp only [Session.run, Session.update]
    exact ih.trans (Interpreter.sameLengths_run _ t.world source fuel)
  | @handle t _ n event params ih =>
    simp only [Session.handle, Session.update]
    refine (ih.trans (Datum.sameLengths_toValues _ params)).trans ?_
    exact Interpreter.sameLengths_handle _ { t.world with store := _ } event _ fuel
  | fork _ _ ih | setStopped _ _ ih | feed _ _ ih | report _ ih => exact ih

/-! ### Loops over arrays -/

namespace Eval

/-- From `σ` the first `k` rounds of a loop over an array end in `τ`, and each goes on to the next. Each
gets the element at its place as it is when its turn comes. -/
inductive Laps (round : Value → Eval Flow) (ref : Nat) (σ : Machine) : Nat → Machine → Prop where
  | start : Laps round ref σ 0 σ
  | lap {k : Nat} {τ τ' : Machine} {v : Value} (h : Laps round ref σ k τ)
    (helem : (τ.world.store.array ref)[k]? = some v) (hround : (round v).run.run τ = (.ok .next, τ')) :
    Laps round ref σ (k + 1) τ'

section
variable {round : Value → Eval Flow} {ref k : Nat} {σ τ : Machine}
  (hround : ∀ v, KeepsLengths _ (round v))
include hround

theorem Laps.sameLengths (h : Laps round ref σ k τ) : σ.world.store.SameLengths τ.world.store := by
  induction h with
  | start => exact .refl _
  | @lap k τ τ' v _ _ hrun ih =>
    have hstep := hround v τ
    rw [hrun] at hstep
    exact ih.trans hstep

/-- The length is the same after each round, and there is an element for each round. -/
theorem Laps.size_eq (h : Laps round ref σ k τ) :
    (τ.world.store.array ref).size = (σ.world.store.array ref).size ∧
      k ≤ (σ.world.store.array ref).size := by
  induction h with
  | start => exact ⟨rfl, Nat.zero_le _⟩
  | @lap k τ τ' v h helem hrun ih =>
    obtain ⟨hk, -⟩ := Array.getElem?_eq_some_iff.1 helem
    rw [ih.1] at hk
    have href := Store.lt_of_lt_array hk
    exact ⟨((Laps.lap h helem hrun).sameLengths hround).length ref href, hk⟩

/-- A loop that has done `i` rounds goes on until all elements had their turn, unless a round leaves it
or the bound on rounds is met. -/
theorem arrayLoop_laps {i : Nat} (h : Laps round ref σ i τ) (fuel : Nat) :
    let n := (σ.world.store.array ref).size
    let r := (arrayLoop round ref fuel i).run.run τ
    ∃ k υ, Laps round ref σ k υ ∧
      (k = n ∧ r = (.ok .next, υ) ∨
        (∃ v, (υ.world.store.array ref)[k]? = some v ∧ ((round v).run.run υ).1 ≠ .ok .next) ∨
        k = i + fuel ∧ r = (.error .outOfFuel, υ)) := by
  induction fuel generalizing i τ with
  | zero => exact ⟨i, τ, h, .inr (.inr ⟨rfl, rfl⟩)⟩
  | succ fuel ih =>
    have hstore : store.run.run τ = (.ok τ.world.store, τ) := rfl
    obtain ⟨hsize, hle⟩ := h.size_eq hround
    cases helem : (τ.world.store.array ref)[i]? with
    | none =>
      have hge := Array.getElem?_eq_none_iff.1 helem
      refine ⟨i, τ, h, .inl ⟨by omega, ?_⟩⟩
      rw [arrayLoop, run_bind, hstore]
      dsimp only
      rw [helem]
      rfl
    | some v =>
      rw [arrayLoop, run_bind, hstore]
      dsimp only
      rw [helem]
      dsimp only
      rw [run_bind]
      rcases hr : (round v).run.run τ with ⟨e | _ | w | _, τ'⟩
      · exact ⟨i, τ, h, .inr (.inl ⟨v, helem, by rw [hr]; nofun⟩)⟩
      · obtain ⟨k, υ, hlaps, hend⟩ := ih (h.lap helem hr)
        exact ⟨k, υ, hlaps, hend.imp_right (Or.imp_right (And.imp_left (by omega)))⟩
      · exact ⟨i, τ, h, .inr (.inl ⟨v, helem, by rw [hr]; nofun⟩)⟩
      · exact ⟨i, τ, h, .inr (.inl ⟨v, helem, by rw [hr]; nofun⟩)⟩

end

end Eval

open Eval

/-- One round of a `for` loop. -/
def Block.round (invoke : Invoke) (fuel : Nat) (var : Option Var) (body : Block) (v : Value) : Eval Flow := do
  bindLoopVar var v
  body.run invoke fuel

/-- A `for` loop over an array does one round for each element that the array has when the loop starts,
whatever the rounds change, unless a round leaves the loop or the bound on rounds is met. -/
theorem Stmt.each_laps (funcs : List Function) (depth fuel : Nat) (token : Token) (comment : Option String)
    (var : Option Var) (e : Expr) (body : Block) {σ σ₁ : Machine} {v : Value} {ref : Nat} {ty : Ty}
    (hstopped : σ.world.stopped = false)
    (he : (e.eval (invoke funcs depth)).run.run ⟨ticked σ.world, σ.frames.nest⟩ = (.ok v, σ₁))
    (hv : v.unwrap = .array ref ty) :
    let n := (σ₁.world.store.array ref).size
    let round := body.round (invoke funcs depth) fuel var
    let r := ((Stmt.each token comment var (.over e) body).run (invoke funcs depth) fuel).run.run σ
    ∃ k τ, Laps round ref σ₁ k τ ∧ k ≤ n ∧
      (k = n ∧ r = (.ok .next, { τ with frames := τ.frames.unnest }) ∨
        (∃ u, (τ.world.store.array ref)[k]? = some u ∧ ((round u).run.run τ).1 ≠ .ok .next) ∨
        k = fuel ∧ r = (.error .outOfFuel, { τ with frames := τ.frames.unnest })) := by
  intro n round r
  have hQ := KeepsLengths.stmtCompositional
  have hround (u : Value) : KeepsLengths _ (round u) :=
    hQ.bind (hQ.bindLoopVar var u) fun _ => hQ.block fuel (hQ.invoke funcs depth) body
  obtain ⟨k, τ, hlaps, hend⟩ := arrayLoop_laps hround (.start (σ := σ₁)) fuel
  have hrun : r = (statement token (nested ((Range.over e).run (invoke funcs depth) fuel round))).run.run σ := by
    show ((Stmt.each token comment var (.over e) body).run (invoke funcs depth) fuel).run.run σ = _
    rw [Stmt.run]
    rfl
  have hrange : ((Range.over e).run (invoke funcs depth) fuel round).run.run ⟨ticked σ.world, σ.frames.nest⟩ =
      (arrayLoop round ref fuel 0).run.run σ₁ := by
    rw [Range.run, run_bind, he]
    dsimp only
    rw [hv]
  rw [statement, run_bind, run_tick, hstopped, if_neg Bool.false_ne_true] at hrun
  dsimp only at hrun
  rw [run_located, run_nested] at hrun
  dsimp only at hrun
  rw [hrange] at hrun
  refine ⟨k, τ, hlaps, (hlaps.size_eq hround).2, ?_⟩
  rcases hend with ⟨hk, hr⟩ | hleft | ⟨hk, hr⟩
  · rw [hr] at hrun
    exact .inl ⟨hk, hrun⟩
  · exact .inr (.inl hleft)
  · rw [hr] at hrun
    exact .inr (.inr ⟨by omega, hrun⟩)

end TinyScript
