import TinyScript.Proofs.Eval.Runs
import TinyScript.Proofs.Parsing.Programs
import TinyScript.Session

/-!
# How control leaves statements

Reading a program tells which statements never hand on to the next one, and that `break` is in a loop
and every function with a result ends in one. The run keeps to it (`Flow.Follows`): a statement that
terminates does not go on, `break` leaves loops only, and what leaves a body with a value is one of its
`return` statements.
-/

namespace TinyScript

/-! ### The `return` statements in a body -/

mutual

/-- The `return` statements in a statement. Those in declarations are not run with it. -/
def Stmt.returns : Stmt → List Stmt
  | .ret token comment value => [.ret token comment value]
  | .cond _ _ first more otherwise => first.returns ++ Branch.allReturns more ++ Block.lastReturns otherwise
  | .loop _ branch => branch.returns
  | .each _ _ _ _ body => body.returns
  | _ => []

def Branch.returns : Branch → List Stmt
  | .mk _ _ _ body => body.returns

def Branch.allReturns : List Branch → List Stmt
  | [] => []
  | b :: bs => b.returns ++ Branch.allReturns bs

def Block.lastReturns : Option Block → List Stmt
  | none => []
  | some b => b.returns

def Block.returns : Block → List Stmt
  | .mk _ _ stmts => Stmt.allReturns stmts

def Stmt.allReturns : List Stmt → List Stmt
  | [] => []
  | s :: ss => s.returns ++ Stmt.allReturns ss

end

theorem Block.returns_eq (b : Block) : b.returns = Stmt.allReturns b.stmts := by
  cases b
  rfl

section
variable {F : Sigs} {G : Vars} {result : Option Ty} {token : Token} {comment : Option String}
  {value : Option Expr}

mutual

/-- There is no `return` in a statement that is in no function, and one without a value is in a function
without a result. -/
theorem Stmt.result_of_returns {L : List Scoping} {inLoop : Bool} (s : Stmt)
    (hc : s.Checked F G result L inLoop) (h : Stmt.ret token comment value ∈ s.returns) :
    ∃ τ, result = some τ ∧ (value = none → τ.same .none) := by
  match s with
  | .empty .. | .func .. | .on .. | .brk .. | .typedDecl .. | .inferredDecl .. | .assign .. | .call .. =>
    cases h
  | .ret _ _ none =>
    obtain ⟨τ, hτ, hsame⟩ := hc
    exact ⟨τ, hτ, fun _ => hsame⟩
  | .ret _ _ (some e) =>
    obtain ⟨⟨τ, hτ⟩, -⟩ := hc
    cases List.mem_singleton.1 h
    exact ⟨τ, hτ, fun hnone => by cases hnone⟩
  | .cond _ _ first more otherwise =>
    obtain ⟨h₁, h₂, h₃⟩ := hc
    rcases List.mem_append.1 h with h | h
    · rcases List.mem_append.1 h with h | h
      · exact Branch.result_of_returns first h₁ h
      · exact Branch.result_of_allReturns more h₂ h
    · exact Block.result_of_lastReturns otherwise h₃ h
  | .loop _ b => exact Branch.result_of_returns b hc h
  | .each _ _ var range body => exact Block.result_of_returns body hc.2 h

theorem Branch.result_of_returns {L : List Scoping} {inLoop : Bool} (b : Branch)
    (hc : b.Checked F G result L inLoop) (h : Stmt.ret token comment value ∈ b.returns) :
    ∃ τ, result = some τ ∧ (value = none → τ.same .none) := by
  match b with
  | .mk _ _ test body => exact Block.result_of_returns body hc.2.2 h

theorem Branch.result_of_allReturns {L : List Scoping} {inLoop : Bool} (bs : List Branch)
    (hc : Branch.AllChecked F G result L inLoop bs) (h : Stmt.ret token comment value ∈ Branch.allReturns bs) :
    ∃ τ, result = some τ ∧ (value = none → τ.same .none) := by
  match bs with
  | [] => cases h
  | b :: bs =>
    rcases List.mem_append.1 h with h | h
    · exact Branch.result_of_returns b hc.1 h
    · exact Branch.result_of_allReturns bs hc.2 h

theorem Block.result_of_lastReturns {L : List Scoping} {inLoop : Bool} (b : Option Block)
    (hc : Block.LastChecked F G result L inLoop b) (h : Stmt.ret token comment value ∈ Block.lastReturns b) :
    ∃ τ, result = some τ ∧ (value = none → τ.same .none) := by
  match b with
  | none => cases h
  | some b => exact Block.result_of_returns b hc h

theorem Block.result_of_returns {L : List Scoping} {inLoop : Bool} (b : Block)
    (hc : b.Checked F G result L inLoop) (h : Stmt.ret token comment value ∈ b.returns) :
    ∃ τ, result = some τ ∧ (value = none → τ.same .none) := by
  match b with
  | .mk _ _ stmts => exact Stmt.result_of_allReturns stmts hc h

theorem Stmt.result_of_allReturns {L : List Scoping} {inLoop : Bool} (ss : List Stmt)
    (hc : Stmt.AllChecked F G result L inLoop ss) (h : Stmt.ret token comment value ∈ Stmt.allReturns ss) :
    ∃ τ, result = some τ ∧ (value = none → τ.same .none) := by
  match ss with
  | [] => cases h
  | s :: ss =>
    rcases List.mem_append.1 h with h | h
    · exact Stmt.result_of_returns s hc.1 h
    · exact Stmt.result_of_allReturns ss hc.2 h

end

end

/-! ### What evaluations yield -/

/-- Where an evaluation from the world `w` on has a result, the result and the world fulfil `Q`. -/
def Eval.Yields {α : Type} (w : World) (m : Eval α) (Q : World → α → Prop) : Prop :=
  ∀ σ a σ', σ.world = w → m.run.run σ = (.ok a, σ') → Q σ'.world a

namespace Eval.Yields

variable {α β : Type} {w : World} {m : Eval α} {Q Q' : World → α → Prop} {R : World → β → Prop}

theorem any : Yields w m fun _ _ => True :=
  fun _ _ _ _ _ => trivial

theorem pure {a : α} (h : Q w a) : Yields w (Pure.pure a) Q := by
  rintro σ b σ' rfl hrun
  cases hrun
  exact h

theorem throw {i : Interrupt} : Yields w (MonadExcept.throw i : Eval α) Q := by
  rintro σ b σ' - hrun
  cases hrun

theorem fail {c : Cause} : Yields w (Eval.fail c : Eval α) Q :=
  throw

theorem weaken (hm : Yields w m Q) (hQ : ∀ w' a, Q w' a → Q' w' a) : Yields w m Q' :=
  fun σ a σ' hw hrun => hQ _ _ (hm σ a σ' hw hrun)

theorem bind {f : α → Eval β} (hm : Yields w m Q) (hf : ∀ w' a, Q w' a → Yields w' (f a) R) :
    Yields w (m >>= f) R := by
  intro σ b σ' hw hrun
  rw [run_bind] at hrun
  rcases hr : m.run.run σ with ⟨e | a, σ₁⟩ <;> rw [hr] at hrun
  · cases hrun
  · exact hf _ a (hm σ a σ₁ hw hr) σ₁ b σ' rfl hrun

/-- After an evaluation with any result. -/
theorem andThen {f : α → Eval β} (hf : ∀ w' a, Yields w' (f a) R) : Yields w (m >>= f) R :=
  any.bind fun w' a _ => hf w' a

theorem located {token : Token} (hm : Yields w m Q) : Yields w (Eval.located token m) Q := by
  intro σ a σ' hw hrun
  rw [run_located] at hrun
  rcases hr : m.run.run σ with ⟨(f | _) | b, σ₁⟩ <;> rw [hr] at hrun <;> cases hrun
  exact hm σ a _ hw hr

theorem nested (hm : Yields w m Q) : Yields w (Eval.nested m) Q := by
  intro σ a σ' hw hrun
  rw [run_nested] at hrun
  obtain ⟨hr, hσ'⟩ := Prod.mk.inj hrun
  have := hm { σ with frames := σ.frames.nest } a _ hw (Prod.ext hr rfl)
  rwa [← hσ']

theorem inBody (hm : Yields w m Q) : Yields w (Eval.inBody m) Q := by
  intro σ a σ' hw hrun
  rw [run_inBody] at hrun
  obtain ⟨hr, hσ'⟩ := Prod.mk.inj hrun
  have := hm { σ with frames := σ.frames.enterBody } a _ hw (Prod.ext hr rfl)
  rwa [← hσ']

theorem statement {token : Token} {m : Eval Flow} {Q : World → Flow → Prop}
    (hm : ∀ w', Yields w' m Q) : Yields w (Eval.statement token m) Q :=
  andThen fun w' _ => (hm w').located

end Eval.Yields

open Eval

/-- How control leaves a statement in a loop or not. If `ends` holds, it does not go on to the next
statement. A value that leaves fulfils `R`. -/
def Flow.Follows (R : World → Value → Prop) (inLoop ends : Bool) (w : World) : Flow → Prop
  | .next => ends = false
  | .brk => inLoop
  | .ret v => R w v

section
variable {R : World → Value → Prop} {inLoop ends : Bool} {w : World} {flow : Flow}

theorem Flow.Follows.of_ends {ends' : Bool} (h : flow.Follows R inLoop ends w) (he : ends' → ends) :
    flow.Follows R inLoop ends' w := by
  cases flow with
  | next => exact Bool.eq_false_iff.2 fun h' => Bool.eq_false_iff.1 h (he h')
  | ret v => exact h
  | brk => exact h

/-! ### Loops -/

namespace Eval.Yields

theorem next : Yields w (Pure.pure Flow.next) fun w' flow => flow.Follows R inLoop false w' :=
  pure rfl

/-- A loop is left by what its rounds return, and goes on after anything else. -/
theorem thenRound {round : Eval Flow} (hflow : flow.Follows R true false w)
    (hround : Yields w round fun w' flow => flow.Follows R inLoop false w') :
    Yields w (flow.thenRound round) fun w' flow => flow.Follows R inLoop false w' := by
  cases flow with
  | next => exact hround
  | brk => exact pure rfl
  | ret v => exact pure hflow

theorem whileLoop {round : Eval (Option Flow)} (fuel : Nat)
    (hround : ∀ w', Yields w' round fun w'' o => ∀ flow, o = some flow → flow.Follows R true false w'') :
    Yields w (Eval.whileLoop round fuel) fun w' flow => flow.Follows R inLoop false w' := by
  induction fuel generalizing w with
  | zero => exact throw
  | succ fuel ih =>
    refine (hround w).bind fun w' o ho => ?_
    cases o with
    | none => exact pure rfl
    | some flow => exact thenRound (ho flow rfl) ih

variable {round : Value → Eval Flow}
  (hround : ∀ w' v, Yields w' (round v) fun w'' flow => flow.Follows R true false w'')
include hround

theorem countLoop (stop step : Float) (fuel : Nat) (x : Float) :
    Yields w (Eval.countLoop round stop step fuel x) fun w' flow => flow.Follows R inLoop false w' := by
  induction fuel generalizing w x with
  | zero => exact throw
  | succ fuel ih =>
    unfold Eval.countLoop
    split
    · exact (hround w _).bind fun w' flow hflow => thenRound hflow (ih _)
    · exact pure rfl

theorem arrayLoop (ref fuel i : Nat) :
    Yields w (Eval.arrayLoop round ref fuel i) fun w' flow => flow.Follows R inLoop false w' := by
  induction fuel generalizing w i with
  | zero => exact throw
  | succ fuel ih =>
    refine andThen fun w' s => ?_
    split
    · exact (hround w' _).bind fun w'' flow hflow => thenRound hflow (ih _)
    · exact pure rfl

theorem textLoop (cs : List Char) :
    Yields w (Eval.textLoop round cs) fun w' flow => flow.Follows R inLoop false w' := by
  induction cs generalizing w with
  | nil => exact pure rfl
  | cons c cs ih => exact (hround w _).bind fun w' flow hflow => thenRound hflow ih

theorem mapLoop (ref : Nat) (keys : List String) :
    Yields w (Eval.mapLoop round ref keys) fun w' flow => flow.Follows R inLoop false w' := by
  induction keys generalizing w with
  | nil => exact pure rfl
  | cons key keys ih =>
    refine andThen fun w' s => ?_
    split
    · exact (hround w' _).bind fun w'' flow hflow => thenRound hflow ih
    · exact ih

theorem range {invoke : Invoke} {fuel : Nat} (range : Range) :
    Yields w (range.run invoke fuel round) fun w' flow => flow.Follows R inLoop false w' := by
  cases range with
  | step start stop stride =>
    rw [Range.run_step]
    refine andThen fun _ x => andThen fun _ last => andThen fun _ step => ?_
    split
    · exact fail.located
    · exact countLoop hround last step fuel x
  | «over» e =>
    refine andThen fun w' v => ?_
    split
    · exact arrayLoop hround _ fuel 0
    · exact textLoop hround _
    · exact andThen fun w'' s => mapLoop hround _ _
    · exact fail.located

omit hround

/-- The branches of a conditional, one after the other. -/
theorem orElse {m : Eval (Option Flow)} {n : Eval Flow} {ends' : Bool}
    (hm : Yields w m fun w' o => ∀ flow, o = some flow → flow.Follows R inLoop ends w')
    (hn : ∀ w', Yields w' n fun w'' flow => flow.Follows R inLoop ends' w'') :
    Yields w (m >>= fun | some flow => Pure.pure flow | none => n)
      fun w' flow => flow.Follows R inLoop (ends && ends') w' := by
  refine hm.bind fun w' o ho => ?_
  cases o with
  | some flow => exact pure ((ho flow rfl).of_ends fun h => by simp_all)
  | none => exact (hn w').weaken fun w'' flow hflow => hflow.of_ends fun h => by simp_all

end Eval.Yields

end

/-! ### Statements -/

/-- A `return` statement among `rets` gives the value `v` and leaves the world `w`. -/
def ReturnedBy (invoke : Invoke) (fuel : Nat) (rets : List Stmt) (w : World) (v : Value) : Prop :=
  ∃ token comment value, Stmt.ret token comment value ∈ rets ∧
    ∃ σ σ', ((Stmt.ret token comment value).run invoke fuel).run.run σ = (.ok (.ret v), σ') ∧
      σ'.world = w

section
variable {F : Sigs} {G : Vars} {result : Option Ty} {invoke : Invoke} {fuel : Nat} {rets : List Stmt}

theorem Stmt.ret_follows {w : World} {inLoop : Bool} {token : Token} {comment : Option String}
    {value : Option Expr} (hrets : Stmt.ret token comment value ∈ rets) :
    Yields w ((Stmt.ret token comment value).run invoke fuel)
      fun w' flow => flow.Follows (ReturnedBy invoke fuel rets) inLoop true w' := by
  have hret : Yields w ((Stmt.ret token comment value).run invoke fuel)
      fun _ flow => ∃ v, flow = .ret v := by
    cases value with
    | none => exact .statement fun _ => .pure ⟨_, rfl⟩
    | some value => exact .statement fun _ => .andThen fun _ v => .pure ⟨v, rfl⟩
  intro σ flow σ' hw hrun
  obtain ⟨v, rfl⟩ := hret σ flow σ' hw hrun
  exact ⟨token, comment, value, hrets, σ, σ', hrun, rfl⟩

mutual

theorem Stmt.run_follows {w : World} {L : List Scoping} {inLoop : Bool} (s : Stmt)
    (hc : s.Checked F G result L inLoop) (hrets : s.returns ⊆ rets) :
    Yields w (s.run invoke fuel) fun w' flow =>
      flow.Follows (ReturnedBy invoke fuel rets) inLoop s.terminates w' := by
  match s with
  | .empty .. | .func .. | .on .. => exact .statement fun _ => .pure rfl
  | .typedDecl token comment var value | .inferredDecl token comment var value =>
    exact .statement fun _ => .andThen fun _ _ => .andThen fun _ _ => .pure rfl
  | .assign token comment target value =>
    exact .statement fun _ => .andThen fun _ _ => .andThen fun _ _ => .pure rfl
  | .call token comment name args ty =>
    exact .statement fun _ => .andThen fun _ _ => .andThen fun _ _ => .pure rfl
  | .ret token comment value => exact Stmt.ret_follows (hrets (.head _))
  | .brk token comment => exact .statement fun _ => .pure hc
  | .cond token comment first more none =>
    obtain ⟨hc₁, hc₂, -⟩ := hc
    obtain ⟨⟨hr₁, hr₂⟩, -⟩ : (first.returns ⊆ rets ∧ Branch.allReturns more ⊆ rets) ∧ _ := by
      simpa only [Stmt.returns, List.append_subset] using hrets
    refine .statement fun w' => (Yields.orElse (Branch.run_follows first hc₁ hr₁) fun w₁ =>
      Yields.orElse (Branch.runFirst_follows more hc₂ hr₂) fun w₂ => Yields.next).weaken
      fun w'' flow hflow => hflow.of_ends fun h => by cases h
  | .cond token comment first more (some block) =>
    obtain ⟨hc₁, hc₂, hc₃⟩ := hc
    obtain ⟨⟨hr₁, hr₂⟩, hr₃⟩ : (first.returns ⊆ rets ∧ Branch.allReturns more ⊆ rets) ∧
        block.returns ⊆ rets := by
      simpa only [Stmt.returns, Block.lastReturns, List.append_subset] using hrets
    refine .statement fun w' => (Yields.orElse (Branch.run_follows first hc₁ hr₁) fun w₁ =>
      Yields.orElse (Branch.runFirst_follows more hc₂ hr₂) fun w₂ => Block.run_follows block hc₃ hr₃).weaken
      fun w'' flow hflow => hflow.of_ends fun h => ?_
    simp only [Stmt.terminates, Bool.and_eq_true] at h ⊢
    exact ⟨h.1.2, h.2, h.1.1⟩
  | .loop token branch =>
    exact .statement fun w' => .whileLoop fuel fun w'' =>
      (Branch.run_follows branch hc hrets).weaken fun _ o ho flow hflow =>
        (ho flow hflow).of_ends fun h => by cases h
  | .each token comment var range body =>
    exact .statement fun w' => .nested (.range (fun w'' v => .andThen fun w₃ _ =>
      (Block.run_follows body hc.2 hrets).weaken fun _ flow hflow =>
        hflow.of_ends fun h => by cases h) range)

theorem Branch.run_follows {w : World} {L : List Scoping} {inLoop : Bool} (b : Branch)
    (hc : b.Checked F G result L inLoop) (hrets : b.returns ⊆ rets) :
    Yields w (b.run invoke fuel) fun w' o => ∀ flow, o = some flow →
      flow.Follows (ReturnedBy invoke fuel rets) inLoop b.terminates w' := by
  match b with
  | .mk token comment test body =>
    refine .andThen fun _ v => .andThen fun w' holds => ?_
    split
    · refine (Block.run_follows body hc.2.2 hrets).bind fun w'' flow hflow => .pure fun _ h => ?_
      cases h
      exact hflow
    · exact .pure nofun

theorem Branch.runFirst_follows {w : World} {L : List Scoping} {inLoop : Bool} (bs : List Branch)
    (hc : Branch.AllChecked F G result L inLoop bs) (hrets : Branch.allReturns bs ⊆ rets) :
    Yields w (Branch.runFirst invoke fuel bs) fun w' o => ∀ flow, o = some flow →
      flow.Follows (ReturnedBy invoke fuel rets) inLoop (allTerminate bs) w' := by
  match bs with
  | [] => exact .pure nofun
  | b :: bs =>
    obtain ⟨hr₁, hr₂⟩ := List.append_subset.1 hrets
    refine (Branch.run_follows b hc.1 hr₁).bind fun w' o ho => ?_
    cases o with
    | some flow =>
      refine .pure fun _ h => ?_
      cases h
      refine (ho flow rfl).of_ends fun h => ?_
      rw [allTerminate, Bool.and_eq_true] at h
      exact h.1
    | none =>
      refine (Branch.runFirst_follows bs hc.2 hr₂).weaken fun w'' o ho flow hflow => ?_
      refine (ho flow hflow).of_ends fun h => ?_
      rw [allTerminate, Bool.and_eq_true] at h
      exact h.2

theorem Block.run_follows {w : World} {L : List Scoping} {inLoop : Bool} (b : Block)
    (hc : b.Checked F G result L inLoop) (hrets : b.returns ⊆ rets) :
    Yields w (b.run invoke fuel) fun w' flow =>
      flow.Follows (ReturnedBy invoke fuel rets) inLoop b.terminates w' := by
  match b with
  | .mk token comment stmts => exact .nested (Stmt.runAll_follows stmts hc hrets)

theorem Stmt.runAll_follows {w : World} {L : List Scoping} {inLoop : Bool} (ss : List Stmt)
    (hc : Stmt.AllChecked F G result L inLoop ss) (hrets : Stmt.allReturns ss ⊆ rets) :
    Yields w (Stmt.runAll invoke fuel ss) fun w' flow =>
      flow.Follows (ReturnedBy invoke fuel rets) inLoop (anyTerminates ss) w' := by
  match ss with
  | [] => exact .pure rfl
  | s :: ss =>
    obtain ⟨hr₁, hr₂⟩ := List.append_subset.1 hrets
    refine (Stmt.run_follows s hc.1 hr₁).bind fun w' flow hflow => ?_
    cases flow with
    | next =>
      refine (Stmt.runAll_follows ss hc.2 hr₂).weaken fun w'' flow h => h.of_ends fun he => ?_
      rw [anyTerminates, show s.terminates = false from hflow] at he
      exact he
    | ret v => exact .pure hflow
    | brk => exact .pure hflow

end

/-! ### Bodies -/

/-- Control does not leave a body that is in no loop by `break`. -/
theorem Stmt.runAll_ne_brk {L : List Scoping} {ss : List Stmt}
    (hc : Stmt.AllChecked F G result L false ss) (σ : Machine) :
    ((Stmt.runAll invoke fuel ss).run.run σ).1 ≠ .ok .brk := by
  intro hbrk
  have := Stmt.runAll_follows (w := σ.world) ss hc (List.Subset.refl _) σ .brk _ rfl (Prod.ext hbrk rfl)
  cases this

/-- Control goes on to the next statement of a program. -/
theorem Stmt.next_of_run {L : List Scoping} {s : Stmt} {σ σ' : Machine} {flow : Flow}
    (hc : s.Checked F G none L false) (h : (s.run invoke fuel).run.run σ = (.ok flow, σ')) : flow = .next := by
  have hflow := Stmt.run_follows (w := σ.world) s hc (List.Subset.refl _) σ flow σ' rfl h
  cases flow with
  | next => rfl
  | ret v =>
    obtain ⟨token, comment, value, hret, -⟩ := hflow
    obtain ⟨τ, hτ, -⟩ := Stmt.result_of_returns s hc hret
    cases hτ
  | brk => cases hflow

/-- A body that ends in a result and comes to its end was left by one of its `return` statements. -/
theorem Block.stmts_follow {b : Block} {L : List Scoping} {σ σ' : Machine} {flow : Flow}
    (hc : Stmt.AllChecked F G result L false b.stmts) (hends : b.terminates)
    (h : (Stmt.runAll invoke fuel b.stmts).run.run σ = (.ok flow, σ')) :
    ∃ v, flow = .ret v ∧ ReturnedBy invoke fuel b.returns σ'.world v := by
  rw [Block.returns_eq]
  have hflow := Stmt.runAll_follows (w := σ.world) b.stmts hc (List.Subset.refl _) σ flow σ' rfl h
  cases flow with
  | ret v => exact ⟨v, rfl, hflow⟩
  | next =>
    have hends : anyTerminates b.stmts = true := by
      obtain ⟨t, c, stmts⟩ := b
      exact hends
    rw [show anyTerminates b.stmts = false from hflow] at hends
    cases hends
  | brk => cases hflow

end

/-- The parts of a call with a result: the parameters get their values in a frame of their own, the body
runs there, and the frames of the caller come back. -/
theorem Function.call_parts {f : Function} {invoke : Invoke} {fuel : Nat} {args : List Value}
    {σ σ' : Machine} {v : Value} (h : (f.call invoke fuel args).run.run σ = (.ok v, σ')) :
    ∃ σ₁ flow σ₂,
      (f.signature.bind args).run.run { σ with frames := σ.frames.enterBody } = (.ok (), σ₁) ∧
      (Stmt.runAll invoke fuel f.body.stmts).run.run σ₁ = (.ok flow, σ₂) ∧
      σ' = { σ₂ with frames := σ₂.frames.leaveBody σ.frames.locals } ∧
      ∀ v', flow = .ret v' → v' = v := by
  unfold Function.call at h
  rw [run_inBody, run_bind] at h
  rcases hbind : (f.signature.bind args).run.run { σ with frames := σ.frames.enterBody } with ⟨e | ⟨⟩, σ₁⟩
  · rw [hbind] at h
    cases h
  · rw [hbind] at h
    dsimp only at h
    rw [run_bind] at h
    rcases hrun : (Stmt.runAll invoke fuel f.body.stmts).run.run σ₁ with ⟨e | flow, σ₂⟩
    · rw [hrun] at h
      cases h
    · rw [hrun] at h
      refine ⟨σ₁, flow, σ₂, rfl, hrun, ?_, fun v' hflow => ?_⟩
      · cases flow <;> exact (Prod.mk.inj h).2.symm
      · subst hflow
        exact Except.ok.inj (Prod.mk.inj h).1

/-- What reading a program tells of the ways control takes holds when it runs. The statements of a program
and the bodies of its functions and handlers are never left by `break`. All `return` statements of a
function with a result have a value, and where a call of it comes to a value, its body was left by one of
them, which gave that value. -/
theorem Program.flow_sound {source : String} {p : Program}
    (hp : Program.parse source .standard = .ok p) :
    (∀ body : List Stmt, body = p.stmts ∨ (∃ f ∈ p.funcs, body = f.body.stmts) ∨
        (∃ h ∈ p.handlers, body = h.body.stmts) →
      ∀ (depth fuel : Nat) (σ : Machine),
        ((Stmt.runAll (invoke p.funcs depth) fuel body).run.run σ).1 ≠ .ok .brk) ∧
    (∀ f ∈ p.funcs, f.signature.result.same .none = false →
      (∀ token comment value, Stmt.ret token comment value ∈ f.body.returns → value.isSome) ∧
      ∀ (depth fuel : Nat) (args : List Value) (σ : Machine) (v : Value) (σ' : Machine),
        (f.call (invoke p.funcs depth) fuel args).run.run σ = (.ok v, σ') →
        ∃ σ₁ σ₂, (f.signature.bind args).run.run { σ with frames := σ.frames.enterBody } = (.ok (), σ₁) ∧
          (Stmt.runAll (invoke p.funcs depth) fuel f.body.stmts).run.run σ₁ = (.ok (.ret v), σ₂) ∧
          σ' = { σ₂ with frames := σ₂.frames.leaveBody σ.frames.locals } ∧
          ∃ token comment value, Stmt.ret token comment (some value) ∈ f.body.returns ∧
            ∃ σ₃ σ₄, ((Stmt.ret token comment (some value)).run (invoke p.funcs depth) fuel).run.run σ₃ =
              (.ok (.ret v), σ₄) ∧ σ₄.world = σ₂.world) := by
  have hread := Program.read_of_parse hp
  obtain ⟨o, -, hc, hbodies⟩ := Program.checked_of_read hread
  constructor
  · rintro body (rfl | ⟨f, hf, rfl⟩ | ⟨h, hh, rfl⟩) depth fuel σ
    · exact Stmt.runAll_ne_brk hc.stmts σ
    · exact Stmt.runAll_ne_brk (hbodies f hf) σ
    · exact Stmt.runAll_ne_brk (hc.handlers h hh) σ
  · intro f hf hresult
    have hvalue : ∀ token comment value, Stmt.ret token comment value ∈ f.body.returns → value.isSome := by
      intro token comment value hret
      rw [Block.returns_eq] at hret
      obtain ⟨τ, hτ, hsame⟩ := Stmt.result_of_allReturns f.body.stmts (hbodies f hf) hret
      cases hτ
      cases value with
      | none => cases hresult.symm.trans (hsame rfl)
      | some value => rfl
    refine ⟨hvalue, fun depth fuel args σ v σ' hrun => ?_⟩
    have hends := (Program.terminates_of_read hread f hf).resolve_left (by simp [hresult])
    obtain ⟨σ₁, flow, σ₂, hbind, hbody, hσ', hv⟩ := Function.call_parts hrun
    obtain ⟨w, rfl, token, comment, value, hret, σ₃, σ₄, hgives, hworld⟩ :=
      Block.stmts_follow (hbodies f hf) hends hbody
    obtain rfl := hv w rfl
    obtain ⟨e, rfl⟩ := Option.isSome_iff_exists.1 (hvalue _ _ _ hret)
    exact ⟨σ₁, σ₂, hbind, hbody, hσ', token, comment, e, hret, σ₃, σ₄, hgives, hworld⟩

/-- A function with a loop that one branch leaves for what comes after it, and one for the caller. -/
def branchingSource : String :=
  "func f:string x:string\n while true\n  if x == \"a\"\n   break\n  else\n   return x\n  end\n end\n" ++
  " return \"end\"\nend\n"

/-- Whether a function of the program returns the second text for the first. -/
def Program.answers (p : Program) (arg text : String) : Bool :=
  p.funcs.any fun f => !f.signature.result.same .none &&
    match ((f.call (invoke p.funcs 2) 3 [.str arg]).run.run {}).1 with
    | .ok (.str s) => s == text
    | _ => false

theorem Program.exists_of_answers {p : Program} {arg text : String} (h : p.answers arg text) :
    ∃ f ∈ p.funcs, f.signature.result.same .none = false ∧
      ∃ σ', (f.call (invoke p.funcs 2) 3 [.str arg]).run.run {} = (.ok (.str text), σ') := by
  obtain ⟨f, hf, hanswer⟩ := List.any_eq_true.1 h
  rw [Bool.and_eq_true, Bool.not_eq_true'] at hanswer
  obtain ⟨hresult, hcall⟩ := hanswer
  split at hcall
  · next s hs =>
    cases beq_iff_eq.1 hcall
    exact ⟨f, hf, hresult, _, Prod.ext hs rfl⟩
  · cases hcall

theorem branchingSource_flow_sound : ∃ p, Program.parse branchingSource .standard = .ok p ∧
    ∃ f ∈ p.funcs, f.signature.result.same .none = false ∧
      ∃ σ', (f.call (invoke p.funcs 2) 3 [.str "a"]).run.run {} = (.ok (.str "end"), σ') ∧
        ∃ σ₁ σ₂, (f.signature.bind [.str "a"]).run.run { frames := Frames.enterBody {} } = (.ok (), σ₁) ∧
          (Stmt.runAll (invoke p.funcs 2) 3 f.body.stmts).run.run σ₁ = (.ok (.ret (.str "end")), σ₂) ∧
          σ' = { σ₂ with frames := σ₂.frames.leaveBody [] } ∧
          ∃ token comment value, Stmt.ret token comment (some value) ∈ f.body.returns ∧
            ∃ σ₃ σ₄, ((Stmt.ret token comment (some value)).run (invoke p.funcs 2) 3).run.run σ₃ =
              (.ok (.ret (.str "end")), σ₄) ∧ σ₄.world = σ₂.world := by
  have hparse : (Program.parse branchingSource .standard).toOption.any (·.answers "a" "end") := by
    decide +kernel
  cases hp : Program.parse branchingSource .standard with
  | error problems => rw [hp] at hparse; cases hparse
  | ok p =>
    rw [hp] at hparse
    obtain ⟨f, hf, hresult, σ', hrun⟩ := Program.exists_of_answers hparse
    exact ⟨p, rfl, f, hf, hresult, σ', hrun,
      ((Program.flow_sound hp).2 f hf hresult).2 2 3 [.str "a"] {} (.str "end") σ' hrun⟩

end TinyScript
