import TinyScript.Proofs.Eval.Compositional
import TinyScript.Session

/-!
# Stopping a run

The host asks for the end of a run while a statement begins, and the run ends where the next statement
would begin. So a run with a limit on the number of statements does what the run without one does, up to
the limit: if the free run gets by with the limit both are the same, and if not the run with the limit is
stopped, and what it asked of the host is a prefix of what the free run asks. This is preserved by each
step (`Cuts`), whatever fails on the way.
-/

namespace TinyScript

namespace Host
variable (h : Host)

theorem calls_ask (c : HostCall) : h.calls.toList <+: (h.ask c).calls.toList := by
  simp [ask]

theorem calls_read : h.calls.toList <+: h.read.2.calls.toList := by
  have hask := h.calls_ask .read
  unfold read
  dsimp only
  split <;> exact hask

end Host

namespace Machine

/-- The host does not ask for the end of the run, and never will. -/
structure Free (σ : Machine) : Prop where
  running : σ.world.stopped = false
  unlimited : σ.world.stopAfter = none

/-- The host asks for the end of the run after `limit` statements. -/
def stoppingAt (σ : Machine) (limit : Nat) : Machine :=
  { σ with
    world := { σ.world with stopAfter := some limit, stopped := σ.world.ticks == limit } }

/-- The host asks for the end of the run after this many statements, or never. -/
def withLimit (σ : Machine) (limit : Option Nat) : Machine :=
  { σ with world := { σ.world with stopAfter := limit } }

/-- What the host was asked for so far. -/
def calls (σ : Machine) : List HostCall :=
  σ.world.host.calls.toList

/-- A free run goes on from `σ` to `σ'`. -/
structure GoesOn (σ σ' : Machine) : Prop where
  free : σ'.Free
  ticks : σ.world.ticks ≤ σ'.world.ticks
  calls : σ.calls <+: σ'.calls

theorem GoesOn.trans {σ σ' σ'' : Machine} (h : GoesOn σ σ') (h' : GoesOn σ' σ'') : GoesOn σ σ'' :=
  ⟨h'.free, Nat.le_trans h.ticks h'.ticks, h.calls.trans h'.calls⟩

/-- A step that begins no statement. -/
structure Quiet (σ σ' : Machine) : Prop where
  stopped : σ'.world.stopped = σ.world.stopped
  stopAfter : σ'.world.stopAfter = σ.world.stopAfter
  ticks : σ'.world.ticks = σ.world.ticks
  calls : σ.calls <+: σ'.calls

theorem Quiet.refl (σ : Machine) : Quiet σ σ :=
  ⟨rfl, rfl, rfl, List.prefix_rfl⟩

theorem Quiet.goesOn {σ σ' : Machine} (h : Quiet σ σ') (hσ : σ.Free) : GoesOn σ σ' :=
  ⟨⟨h.stopped.trans hσ.running, h.stopAfter.trans hσ.unlimited⟩, Nat.le_of_eq h.ticks.symm, h.calls⟩

end Machine

namespace Eval

variable {α β : Type}

/-- How a run with a limit ends, by how the free run ends. -/
inductive CutAt (limit : Nat) (free cut : Except Interrupt α × Machine) : Prop where
  /-- The free run gets by with the limit. -/
  | whole (hfree : free.2.world.ticks ≤ limit) (hcut : cut = (free.1, free.2.stoppingAt limit))
  /-- The free run goes beyond the limit. -/
  | stopped (hfree : limit < free.2.world.ticks)
    (outcome : cut.1 = .error (.failed ⟨.stopped, none⟩))
    (ticks : cut.2.world.ticks = limit)
    (calls : cut.2.calls <+: free.2.calls)

/-- An evaluation goes on, and a limit on the number of statements cuts it short. -/
structure Cuts (α : Type) (m : Eval α) : Prop where
  goesOn : ∀ σ : Machine, σ.Free → σ.GoesOn (m.run.run σ).2
  cut : ∀ (σ : Machine) (limit : Nat), σ.Free → σ.world.ticks ≤ limit →
    CutAt limit (m.run.run σ) (m.run.run (σ.stoppingAt limit))

namespace Cuts

variable {m : Eval α}

/-- A step that begins no statement and does not look at the limit. -/
theorem quiet (hquiet : ∀ σ : Machine, σ.Quiet (m.run.run σ).2)
    (hlimit : ∀ (σ : Machine) (limit : Nat),
      m.run.run (σ.stoppingAt limit) = ((m.run.run σ).1, (m.run.run σ).2.stoppingAt limit)) :
    Cuts α m :=
  ⟨fun σ hσ => (hquiet σ).goesOn hσ, fun σ limit _ hle =>
    .whole (Nat.le_trans (Nat.le_of_eq (hquiet σ).ticks) hle) (hlimit σ limit)⟩

theorem bind {f : α → Eval β} (hm : Cuts α m) (hf : ∀ a, Cuts β (f a)) : Cuts β (m >>= f) := by
  refine ⟨fun σ hσ => ?_, fun σ limit hσ hle => ?_⟩
  · have hm := hm.goesOn σ hσ
    rw [run_bind]
    rcases hr : m.run.run σ with ⟨e | a, σ'⟩ <;> rw [hr] at hm
    · exact hm
    · exact hm.trans ((hf a).goesOn σ' hm.free)
  · have hgoes := hm.goesOn σ hσ
    have hcut := hm.cut σ limit hσ hle
    rw [run_bind, run_bind]
    rcases hr : m.run.run σ with ⟨e | a, σ'⟩ <;> rw [hr] at hgoes hcut
    · cases hcut with
      | whole hfree hcut => rw [hcut]; exact .whole hfree rfl
      | stopped hfree outcome ticks calls =>
        rcases hc : m.run.run (σ.stoppingAt limit) with ⟨o, σc⟩
        rw [hc] at outcome ticks calls
        cases outcome
        exact .stopped hfree rfl ticks calls
    · cases hcut with
      | whole hfree hcut => rw [hcut]; exact (hf a).cut σ' limit hgoes.free hfree
      | stopped hfree outcome ticks calls =>
        -- the rest of the free run only adds to what the host was asked for
        have hrest := (hf a).goesOn σ' hgoes.free
        rcases hc : m.run.run (σ.stoppingAt limit) with ⟨o, σc⟩
        rw [hc] at outcome ticks calls
        cases outcome
        exact .stopped (Nat.lt_of_lt_of_le hfree hrest.ticks) rfl ticks (calls.trans hrest.calls)

theorem located {token : Token} (hm : Cuts α m) : Cuts α (Eval.located token m) := by
  refine ⟨fun σ hσ => ?_, fun σ limit hσ hle => ?_⟩
  · have hgoes := hm.goesOn σ hσ
    rw [run_located]
    rcases hr : m.run.run σ with ⟨(f | _) | a, σ'⟩ <;> rw [hr] at hgoes <;> exact hgoes
  · have hcut := hm.cut σ limit hσ hle
    rw [run_located, run_located]
    cases hcut with
    | whole hfree hcut =>
      rw [hcut]
      rcases hr : m.run.run σ with ⟨(f | _) | a, σ'⟩ <;> rw [hr] at hfree <;> exact .whole hfree rfl
    | stopped hfree outcome ticks calls =>
      rcases hc : m.run.run (σ.stoppingAt limit) with ⟨o, σc⟩
      rw [hc] at outcome ticks calls
      cases outcome
      -- a wish to stop belongs to no place in the source
      rcases hr : m.run.run σ with ⟨(f | _) | a, σ'⟩ <;> rw [hr] at hfree calls <;>
        exact .stopped hfree rfl ticks calls

/-- Evaluation in other frames, which the limit has no part in. -/
theorem framed {n : Eval α} (enter : Frames → Frames) (leave : Frames → Frames → Frames)
    (hn : ∀ σ, n.run.run σ =
      let r := m.run.run { σ with frames := enter σ.frames }
      (r.1, { r.2 with frames := leave σ.frames r.2.frames }))
    (hm : Cuts α m) : Cuts α n := by
  refine ⟨fun σ hσ => ?_, fun σ limit hσ hle => ?_⟩
  · have hgoes := hm.goesOn { σ with frames := enter σ.frames } ⟨hσ.running, hσ.unlimited⟩
    rw [hn]
    exact ⟨⟨hgoes.free.running, hgoes.free.unlimited⟩, hgoes.ticks, hgoes.calls⟩
  · have hcut := hm.cut { σ with frames := enter σ.frames } limit ⟨hσ.running, hσ.unlimited⟩ hle
    rw [hn, hn]
    cases hcut with
    | whole hfree hcut =>
      refine .whole hfree ?_
      show (let r := m.run.run (Machine.stoppingAt { σ with frames := enter σ.frames } limit)
        (r.1, ({ r.2 with frames := leave σ.frames r.2.frames } : Machine))) = _
      rw [hcut]
      rfl
    | stopped hfree outcome ticks calls => exact .stopped hfree outcome ticks calls

theorem tick : Cuts Unit Eval.tick := by
  refine ⟨fun σ hσ => ?_, fun σ limit hσ hle => ?_⟩
  · rw [run_tick, hσ.running]
    refine ⟨⟨?_, hσ.unlimited⟩, Nat.le_succ _, List.prefix_rfl⟩
    show (σ.world.stopAfter == some (σ.world.ticks + 1)) = false
    rw [hσ.unlimited]
    rfl
  · rw [run_tick, run_tick, hσ.running]
    rcases Nat.eq_or_lt_of_le hle with heq | hlt
    · have hstop : (σ.stoppingAt limit).world.stopped = true := beq_iff_eq.2 heq
      rw [hstop]
      exact .stopped (by rw [← heq]; exact Nat.lt_succ_self _) rfl heq List.prefix_rfl
    · have hstop : (σ.stoppingAt limit).world.stopped = false := beq_false_of_ne (Nat.ne_of_lt hlt)
      rw [hstop]
      refine .whole hlt ?_
      have hnow : (some limit == some (σ.world.ticks + 1)) = (σ.world.ticks + 1 == limit) := by
        show (limit == σ.world.ticks + 1) = _
        exact BEq.comm
      simp only [Machine.stoppingAt, ticked, hnow, Bool.false_eq_true, if_false]

/-- The steps of expressions, none of which looks at the limit. -/
theorem compositional : Compositional Cuts where
  pure _ := .quiet (fun σ => .refl σ) fun _ _ => rfl
  bind := bind
  fail _ _ := .quiet (fun σ => .refl σ) fun _ _ => rfl
  outOfFuel := .quiet (fun σ => .refl σ) fun _ _ => rfl
  located := located
  store := .quiet (fun σ => .refl σ) fun _ _ => rfl
  replaceElem _ _ _ := .quiet (fun _ => ⟨rfl, rfl, rfl, List.prefix_rfl⟩) fun _ _ => rfl
  modifyMap _ _ := .quiet (fun _ => ⟨rfl, rfl, rfl, List.prefix_rfl⟩) fun _ _ => rfl
  newArray _ _ := .quiet (fun _ => ⟨rfl, rfl, rfl, List.prefix_rfl⟩) fun _ _ => rfl
  newMap _ _ := .quiet (fun _ => ⟨rfl, rfl, rfl, List.prefix_rfl⟩) fun _ _ => rfl
  lookup name := by
    refine .quiet (fun σ => ?_) fun σ limit => ?_
    · rw [run_lookup]
      split <;> exact .refl σ
    · rw [run_lookup, run_lookup, show (σ.stoppingAt limit).frames = σ.frames from rfl]
      cases σ.frames.get? name <;> rfl
  unknownFunction _ := .quiet (fun σ => .refl σ) fun _ _ => rfl
  noteError _ := .quiet (fun _ => ⟨rfl, rfl, rfl, List.prefix_rfl⟩) fun _ _ => rfl
  ask c := .quiet (fun σ => ⟨rfl, rfl, rfl, σ.world.host.calls_ask c⟩) fun _ _ => rfl
  readLine := .quiet (fun σ => ⟨rfl, rfl, rfl, σ.world.host.calls_read⟩) fun _ _ => rfl
  randomly _ := .quiet (fun _ => ⟨rfl, rfl, rfl, List.prefix_rfl⟩) fun _ _ => rfl

/-- The steps of statements, which a limit ends where they begin. -/
theorem stmtCompositional : StmtCompositional Cuts Cuts where
  expr := compositional
  weaken := id
  bind := bind
  located := located
  tick := tick
  declare _ _ := .quiet (fun _ => ⟨rfl, rfl, rfl, List.prefix_rfl⟩) fun _ _ => rfl
  assign name v := by
    refine .quiet (fun σ => ?_) fun σ limit => ?_
    · rw [run_assign]
      split
      · exact ⟨rfl, rfl, rfl, List.prefix_rfl⟩
      · exact .refl σ
    · rw [run_assign, run_assign, show (σ.stoppingAt limit).frames = σ.frames from rfl]
      cases σ.frames.assign? name v <;> rfl
  nested {_ m} hm := .framed Frames.nest (fun _ f => f.unnest) (run_nested m) hm
  inBody {_ m} hm := .framed Frames.enterBody (fun f g => g.leaveBody f.locals) (run_inBody m) hm

end Cuts

end Eval

/-- Stopping cuts a run to a prefix. If a run that is not stopped begins at most `n` statements, then the
run that the host asks to end with its `n`-th statement has the same outcome, calls, variables and
storage. If not, that run is stopped after exactly `n` statements, and what it asked of the host is a
prefix of what the other run asks. -/
theorem Program.run_withLimit (p : Program) (fuel n : Nat) (hn : 1 ≤ n) (σ : Machine)
    (hσ : σ.world.stopped = false) :
    let free := (p.run fuel).run.run (σ.withLimit none)
    let cut := (p.run fuel).run.run (σ.withLimit (some (σ.world.ticks + n)))
    (free.2.world.ticks ≤ σ.world.ticks + n →
      cut.1 = free.1 ∧ cut.2.calls = free.2.calls ∧ cut.2.frames = free.2.frames ∧
        cut.2.world.store = free.2.world.store ∧ cut.2.world.ticks = free.2.world.ticks) ∧
    (σ.world.ticks + n < free.2.world.ticks →
      cut.1 = .error (.failed ⟨.stopped, none⟩) ∧ cut.2.world.ticks = σ.world.ticks + n ∧
        cut.2.calls <+: free.2.calls) := by
  have hfree : (σ.withLimit none).Free := ⟨hσ, rfl⟩
  have hstart : (σ.withLimit none).stoppingAt (σ.world.ticks + n) =
      σ.withLimit (some (σ.world.ticks + n)) := by
    have hne : (σ.world.ticks == σ.world.ticks + n) = false := beq_false_of_ne (by omega)
    simp only [Machine.stoppingAt, Machine.withLimit, hne, hσ]
  have hcut := (Eval.Cuts.stmtCompositional.program p fuel).cut _ _ hfree
    (Nat.le_add_right σ.world.ticks n)
  rw [hstart] at hcut
  cases hcut with
  | whole hle hcut =>
    refine ⟨fun _ => ?_, fun hlt => absurd hlt (Nat.not_lt.2 hle)⟩
    rw [hcut]
    exact ⟨rfl, rfl, rfl, rfl, rfl⟩
  | stopped hlt outcome ticks calls =>
    exact ⟨fun hle => absurd hlt (Nat.not_lt.2 hle), fun _ => ⟨outcome, ticks, calls⟩⟩

/-- A program that prints in the argument of a statement that prints. -/
def nestedPrints : String :=
  "func f:string\n    print \"inner\"\n    return \"x\"\nend\nprint (f) (f)\n"

/-- The program begins six statements; a wish to stop with the fourth one is met in the second call. -/
theorem nestedPrints_withLimit : ∃ p, Program.parse nestedPrints .standard = .ok p ∧
    ((p.run 9).run.run (({} : Machine).withLimit none)).2.world.ticks = 6 ∧
    let cut := (p.run 9).run.run (({} : Machine).withLimit (some (0 + 4)))
    cut.1 = .error (.failed ⟨.stopped, none⟩) ∧ cut.2.world.ticks = 0 + 4 := by
  have hticks : (match Program.parse nestedPrints .standard with
      | .ok p => ((p.run 9).run.run (({} : Machine).withLimit none)).2.world.ticks == 6
      | .error _ => false) = true := by decide +kernel
  cases hp : Program.parse nestedPrints .standard with
  | error problems => rw [hp] at hticks; cases hticks
  | ok p =>
    rw [hp] at hticks
    have hticks := beq_iff_eq.1 hticks
    obtain ⟨outcome, ticks, -⟩ := (p.run_withLimit 9 4 (by decide) {} rfl).2 (by rw [hticks]; decide)
    exact ⟨p, rfl, hticks, outcome, ticks⟩

end TinyScript
