import TinyScript.Proofs.Binding.Closed
import TinyScript.Proofs.Eval.Flow
import TinyScript.Proofs.Eval.Scoping
import TinyScript.Proofs.Typing.Events

/-!
# Names when a program runs

The variables in scope at a place of a checked program are in the frames when it runs, but for globals, whose
declarations may not have run yet. So the only variable that is not found is such a global, and the only function that
is not found is one that the program does not declare. After a run without an error all declarations have run, and
events find every variable.
-/

namespace TinyScript

/-! ### Variables in scope -/

/-- Why a name is not found: a global that is not declared yet, or a function that is none of the given ones. -/
def Cause.Missing (G : Vars) (funcs : List Function) (globals : Frame) : Cause → Prop
  | .internal (.unboundVariable name) => (G name).isSome ∧ globals.get? name = none
  | .internal (.unknownFunction name) => Builtin.ofName? name = none ∧ ∀ f ∈ funcs, f.signature.name ≠ name
  | _ => True

theorem Cause.missing_of_ofStep {G : Vars} {funcs : List Function} {globals : Frame} {c : Cause} (hc : c.ofStep) :
    c.Missing G funcs globals := by
  unfold Cause.Missing
  split
  · cases hc
  · cases hc
  · trivial

/-- The variables in scope are there, unless they are globals. -/
def Frames.Cover (f : Frames) (G : Vars) (L : List Scoping) : Prop :=
  ∀ name, (varTy? G L name).isSome → (G name).isSome ∨ (f.get? name).isSome

section
variable {G : Vars} {L : List Scoping} {f g : Frames} {name : String} {v : Value}

theorem Frames.Cover.mono (h : f.Cover G L) (hw : f.Widens g) : g.Cover G L :=
  fun name hname => (h name hname).imp id hw.get?

theorem Frames.Cover.nest (h : f.Cover G L) : f.nest.Cover G ([] :: L) :=
  h

theorem Frames.cover_enterBody (f : Frames) (G : Vars) : f.enterBody.Cover G [[]] :=
  fun _ hname => .inl hname

theorem isSome_lookup_declare {l : Scoping} {ty : Ty} {name' : String}
    (h : ((l.declare name ty).lookup name').isSome) : name' = name ∨ (l.lookup name').isSome := by
  unfold Scoping.declare at h
  split at h
  · exact .inr h
  · rw [List.lookup_cons] at h
    split at h
    · next heq => exact .inl (beq_iff_eq.1 heq)
    · exact .inr h

theorem Frames.get?_insert_self (f : Frames) (name : String) (v : Value) : ((f.insert name v).get? name).isSome := by
  have hself (l : Frame) : name ∈ (l.insert name v).names := by
    rw [← Frame.get?_isSome_iff, Frame.get?_insert, if_pos rfl]
    rfl
  obtain ⟨globals, locals⟩ := f
  rw [get?_isSome_iff]
  cases locals with
  | nil => exact .inr (hself _)
  | cons l ls => exact .inl ⟨_, List.mem_cons_self, hself l⟩

theorem isSome_varTy?_cons {l : Scoping} : (varTy? G (l :: L) name).isSome ↔
    (l.lookup name).isSome ∨ (varTy? G L name).isSome := by
  unfold varTy?
  rw [List.findSome?_cons]
  cases l.lookup name <;> simp

/-- A declaration covers what is declared. -/
theorem Frames.Cover.insert {l : Scoping} (h : f.Cover G (l :: L)) (name : String) (ty : Ty) (v : Value) :
    (f.insert name v).Cover G (l.declare name ty :: L) := by
  have hmono := h.mono (.insert f name v)
  intro name' hname'
  rcases isSome_varTy?_cons.1 hname' with hl | hL
  · rcases isSome_lookup_declare hl with rfl | hl
    · exact .inr (f.get?_insert_self _ v)
    · exact hmono name' (isSome_varTy?_cons.2 (.inl hl))
  · exact hmono name' (isSome_varTy?_cons.2 (.inr hL))

end

/-! ### Evaluations -/

namespace Eval

section
variable (G : Vars) (funcs : List Function)

/-- How an evaluation ends that starts with frames `f`. If it has a value, the variables in `L` are there. -/
structure Resolved {α : Type} (L : List Scoping) (f : Frames) (r : Except Interrupt α × Machine) : Prop where
  widens : f.Widens r.2.frames
  cover : ∀ a, r.1 = .ok a → r.2.frames.Cover G L
  missing : ∀ e, r.1 = .error (.failed e) → e.cause.Missing G funcs r.2.frames.globals

/-- From where the variables in `L` are there the evaluation finds all names but missing ones, and it gets to
where those in `L'` are. -/
def ResolvesTo (L L' : List Scoping) (α : Type) (m : Eval α) : Prop :=
  ∀ σ, σ.frames.Cover G L → Resolved G funcs L' σ.frames (m.run.run σ)

end

namespace ResolvesTo
variable {G : Vars} {funcs : List Function} {L L' L'' : List Scoping} {α β : Type} {m : Eval α}

/-- What was there before is there after it. -/
theorem keep (hm : ResolvesTo G funcs L L' α m) : ResolvesTo G funcs L L α m := by
  intro σ hσ
  obtain ⟨hwidens, -, hmissing⟩ := hm σ hσ
  exact ⟨hwidens, fun _ _ => hσ.mono hwidens, hmissing⟩

/-- Goes on with a value of which something is known. -/
theorem bindWith {Q : α → Prop} {f : α → Eval β} (hm : ResolvesTo G funcs L L' α m)
    (hQ : ∀ σ a σ', m.run.run σ = (.ok a, σ') → Q a) (hf : ∀ a, Q a → ResolvesTo G funcs L' L'' β (f a)) :
    ResolvesTo G funcs L L'' β (m >>= f) := by
  intro σ hσ
  obtain ⟨hwidens, hcover, hmissing⟩ := hm σ hσ
  rw [run_bind]
  rcases hr : m.run.run σ with ⟨e | a, σ₁⟩ <;> rw [hr] at hwidens hcover hmissing
  · refine ⟨hwidens, fun _ hb => (by cases hb), fun f hf => hmissing f ?_⟩
    cases hf
    rfl
  · obtain ⟨hwidens', hcover', hmissing'⟩ := hf a (hQ _ _ _ hr) σ₁ (hcover a rfl)
    exact ⟨hwidens.trans hwidens', hcover', hmissing'⟩

theorem bind {f : α → Eval β} (hm : ResolvesTo G funcs L L' α m) (hf : ∀ a, ResolvesTo G funcs L' L'' β (f a)) :
    ResolvesTo G funcs L L'' β (m >>= f) :=
  hm.bindWith (Q := fun _ => True) (fun _ _ _ _ => trivial) fun a _ => hf a

/-- A step that leaves the frames alone and misses no name. -/
theorem quiet (hframes : ∀ σ, (m.run.run σ).2.frames = σ.frames)
    (hfail : ∀ σ f, (m.run.run σ).1 = .error (.failed f) → f.cause.ofStep) : ResolvesTo G funcs L L α m := by
  intro σ hσ
  refine ⟨?_, fun _ _ => ?_, fun e he => Cause.missing_of_ofStep (hfail σ e he)⟩
  · rw [hframes]
    exact .refl _
  · rwa [hframes]

/-- A step that leaves the frames alone and always has a value. -/
theorem still (hm : ∀ σ, ∃ a σ', m.run.run σ = (.ok a, σ') ∧ σ'.frames = σ.frames) :
    ResolvesTo G funcs L L α m := by
  refine .quiet (fun σ => ?_) fun σ f hf => ?_ <;> obtain ⟨a, σ', hr, hframes⟩ := hm σ
  · rw [hr, hframes]
  · rw [hr] at hf
    cases hf

theorem pure (a : α) : ResolvesTo G funcs L L α (Pure.pure a) :=
  .still fun σ => ⟨a, σ, rfl, rfl⟩

theorem modifyFrames {f : Frames → Frames} (hw : ∀ fs : Frames, fs.Widens (f fs))
    (hcover : ∀ fs : Frames, fs.Cover G L → (f fs).Cover G L') :
    ResolvesTo G funcs L L' _ (Eval.modifyFrames f) :=
  fun σ hσ => ⟨hw σ.frames, fun _ _ => hcover _ hσ, fun _ he => (by cases he)⟩

theorem noteError (message : Option String) : ResolvesTo G funcs L L _ (Builtin.noteError message) := by
  have hw (fs : Frames) : fs.Widens ((fs.insertGlobal "err" (.bool message.isSome)).insertGlobal "errmsg"
      (.str (message.getD ""))) :=
    (Frames.Widens.insertGlobal fs _ _).trans (.insertGlobal _ _ _)
  exact .modifyFrames hw fun fs hfs => hfs.mono (hw fs)

theorem sequential : Sequential (ResolvesTo G funcs L L) where
  pure := .pure
  bind := .bind
  fail c hc := .quiet (fun _ => rfl) fun _ f hf => by cases hf; exact hc
  outOfFuel := .quiet (fun _ => rfl) fun _ f hf => by cases hf
  store := .still fun _ => ⟨_, _, rfl, rfl⟩
  replaceElem _ _ _ := .still fun _ => ⟨_, _, rfl, rfl⟩
  modifyMap _ _ := .still fun _ => ⟨_, _, rfl, rfl⟩
  newArray _ _ := .still fun _ => ⟨_, _, rfl, rfl⟩
  newMap _ _ := .still fun _ => ⟨_, _, rfl, rfl⟩
  noteError := .noteError
  ask _ := .still fun _ => ⟨_, _, rfl, rfl⟩
  readLine := .still fun _ => ⟨_, _, rfl, rfl⟩
  randomly _ := .still fun _ => ⟨_, _, rfl, rfl⟩

/-- A failure ends the evaluation. -/
theorem fail_bind {c : Cause} {f : α → Eval β} (hc : c.ofStep) : ResolvesTo G funcs L L' β (Eval.fail c >>= f) :=
  fun _ _ => ⟨.refl _, fun _ hb => (by cases hb), fun _ he => by cases he; exact Cause.missing_of_ofStep hc⟩

theorem located {token : Token} (hm : ResolvesTo G funcs L L' α m) :
    ResolvesTo G funcs L L' α (Eval.located token m) := by
  intro σ hσ
  obtain ⟨hwidens, hcover, hmissing⟩ := hm σ hσ
  rw [run_located]
  rcases hr : m.run.run σ with ⟨(f | _) | a, σ₁⟩ <;> rw [hr] at hwidens hcover hmissing
  · refine ⟨hwidens, fun _ ha => (by cases ha), fun e he => ?_⟩
    have hcause : (f.atToken token).cause = f.cause := by
      unfold Failure.atToken
      split <;> rfl
    cases he
    rw [hcause]
    exact hmissing f rfl
  · exact ⟨hwidens, fun _ ha => (by cases ha), fun _ he => (by cases he)⟩
  · exact ⟨hwidens, hcover, fun _ he => (by cases he)⟩

theorem nested (hm : ResolvesTo G funcs ([] :: L) L' α m) : ResolvesTo G funcs L L α (Eval.nested m) := by
  intro σ hσ
  obtain ⟨hwidens, -, hmissing⟩ := hm { σ with frames := σ.frames.nest } hσ.nest
  rw [run_nested]
  exact ⟨hwidens.unnest, fun _ _ => hσ.mono hwidens.unnest, hmissing⟩

theorem inBody (L' : List Scoping) (hm : ResolvesTo G funcs [[]] L' α m) :
    ResolvesTo G funcs L L α (Eval.inBody m) := by
  intro σ hσ
  obtain ⟨hwidens, -, hmissing⟩ := hm { σ with frames := σ.frames.enterBody } (σ.frames.cover_enterBody G)
  rw [run_inBody]
  exact ⟨hwidens.leaveBody, fun _ _ => hσ.mono hwidens.leaveBody, hmissing⟩

/-- A variable in scope that is not found is a global that is not there. -/
theorem missing_of_get? {f : Frames} {name : String} (hf : f.Cover G L) (hname : (varTy? G L name).isSome)
    (hnone : f.get? name = none) : (Cause.internal (.unboundVariable name)).Missing G funcs f.globals := by
  refine ⟨(hf name hname).resolve_right (by simp [hnone]), ?_⟩
  rw [Frames.get?, Option.or_eq_none_iff] at hnone
  exact hnone.2

theorem lookup {name : String} (hname : (varTy? G L name).isSome) : ResolvesTo G funcs L L _ (Eval.lookup name) := by
  intro σ hσ
  rw [run_lookup]
  split
  · exact ⟨.refl _, fun _ _ => hσ, fun _ he => (by cases he)⟩
  · next hnone =>
    exact ⟨.refl _, fun _ ha => (by cases ha), fun e he => by cases he; exact missing_of_get? hσ hname hnone⟩

theorem assign {name : String} {v : Value} (hname : (varTy? G L name).isSome) :
    ResolvesTo G funcs L L _ (Eval.assign name v) := by
  intro σ hσ
  rw [run_assign]
  split
  · next hassign => exact ⟨.assign? hassign, fun _ _ => hσ.mono (.assign? hassign), fun _ he => (by cases he)⟩
  · next hnone =>
    refine ⟨.refl _, fun _ ha => (by cases ha), fun e he => ?_⟩
    cases he
    exact missing_of_get? hσ hname (Frames.get?_eq_none_of_assign? hnone)

end ResolvesTo

end Eval

open Eval

/-! ### Expressions -/

/-- The values of expressions come after those that are done, one for each. -/
theorem Expr.size_of_evalList {invoke : Invoke} {es : List Expr} {done vs : Array Value} {σ σ' : Machine}
    (h : (Expr.evalList invoke done es).run.run σ = (.ok vs, σ')) : vs.size = done.size + es.length := by
  induction es generalizing done σ with
  | nil =>
    cases h
    rfl
  | cons e es ih =>
    rw [Expr.evalList, run_bind] at h
    rcases hr : (e.eval invoke).run.run σ with ⟨e | v, σ₁⟩ <;> rw [hr] at h
    · cases h
    · rw [ih h, Array.size_push, List.length_cons]
      omega

/-- Calls find all names but missing ones, if they have the right number of arguments. -/
def ResolvesCalls (F : Sigs) (G : Vars) (funcs : List Function) (invoke : Invoke) : Prop :=
  ∀ L name args, (∀ sig, F name = some sig → sig.TakesCount args.length) →
    ResolvesTo G funcs L L _ (invoke name args)

section
variable {F : Sigs} {G : Vars} {funcs : List Function} {L L' : List Scoping} {invoke : Invoke}

/-- Goes on with as many values as there are expressions. -/
theorem Eval.ResolvesTo.withValues {α : Type} {es : List Expr} {f : Array Value → Eval α}
    (hes : ResolvesTo G funcs L L _ (Expr.evalList invoke #[] es))
    (hf : ∀ vs : Array Value, vs.toList.length = es.length → ResolvesTo G funcs L L' α (f vs)) :
    ResolvesTo G funcs L L' α (Expr.evalList invoke #[] es >>= f) :=
  hes.bindWith (Q := fun vs => vs.toList.length = es.length)
    (fun _ _ _ h => by simpa using Expr.size_of_evalList h) hf

mutual

theorem Expr.resolves_eval (hinvoke : ResolvesCalls F G funcs invoke) (e : Expr)
    (hc : e.Checked F (varTy? G L)) :
    ResolvesTo G funcs L L _ (e.eval invoke) := by
  have hP : Sequential (ResolvesTo G funcs L L) := ResolvesTo.sequential
  match e with
  | .num .. | .str .. | .bool .. => exact .pure _
  | .var m name =>
    obtain ⟨-, τ, hτ, -⟩ := hc
    exact .located (.lookup (by rw [hτ]; rfl))
  | .array m layout elems =>
    exact .located ((Expr.resolves_evalList hinvoke elems #[] hc.2).bind fun _ => hP.newArray _ _)
  | .map m layout pairs =>
    exact .located ((Expr.resolves_evalPairs hinvoke pairs .empty hc.2).bind fun _ => hP.newMap _ _)
  | .call m name args result =>
    refine .located (.withValues (Expr.resolves_evalList hinvoke args #[] hc.2) fun vs hvs => ?_)
    exact hinvoke L name vs.toList fun sig hsig => hvs ▸ (hc.1 sig hsig).1
  | .unary m op operand =>
    obtain ⟨-, -, hc⟩ := hc
    exact .located ((Expr.resolves_eval hinvoke operand hc).bind fun _ => hP.unaryOp _ _)
  | .binary m op tight left right =>
    obtain ⟨-, hl, hr⟩ := hc
    refine .located ((Expr.resolves_eval hinvoke left hl).bind fun v => ?_)
    split
    · exact .pure _
    · exact (Expr.resolves_eval hinvoke right hr).bind fun _ => hP.binaryOp _ _ _
  | .index m left key =>
    obtain ⟨-, hl, hk⟩ := hc
    exact .located ((Expr.resolves_eval hinvoke left hl).bind fun _ =>
      (Expr.resolves_eval hinvoke key hk).bind fun _ =>
      hP.elementAt _ _)
  | .slice m left start stop =>
    obtain ⟨-, -, hl, h₁, h₂⟩ := hc
    exact .located ((Expr.resolves_eval hinvoke left hl).bind fun _ =>
      (Expr.resolves_evalNumber? hinvoke start h₁).bind fun _ =>
      (Expr.resolves_evalNumber? hinvoke stop h₂).bind fun _ => hP.slice _ _ _)
  | .dot m left key =>
    obtain ⟨-, -, hc⟩ := hc
    exact .located ((Expr.resolves_eval hinvoke left hc).bind fun _ => hP.field _ _)
  | .group m inner => exact .located (Expr.resolves_eval hinvoke inner hc)
  | .assert m left =>
    obtain ⟨-, -, hc⟩ := hc
    exact .located ((Expr.resolves_eval hinvoke left hc).bind fun _ => hP.asserted _ _)
  | .any m inner => exact .located ((Expr.resolves_eval hinvoke inner hc.2).bind fun _ => .pure _)

theorem Expr.resolves_evalList (hinvoke : ResolvesCalls F G funcs invoke) (es : List Expr)
    (done : Array Value) (hc : Expr.AllChecked F (varTy? G L) es) :
    ResolvesTo G funcs L L _ (Expr.evalList invoke done es) := by
  match es with
  | [] => exact .pure _
  | e :: es =>
    exact (Expr.resolves_eval hinvoke e hc.1).bind fun _ => Expr.resolves_evalList hinvoke es _ hc.2

theorem Expr.resolves_evalPairs (hinvoke : ResolvesCalls F G funcs invoke) (ps : List (String × Expr))
    (done : Pairs Value)
    (hc : Expr.PairsChecked F (varTy? G L) ps) : ResolvesTo G funcs L L _ (Expr.evalPairs invoke done ps) := by
  match ps with
  | [] => exact .pure _
  | (key, e) :: ps =>
    exact (Expr.resolves_eval hinvoke e hc.1).bind fun _ => Expr.resolves_evalPairs hinvoke ps _ hc.2

theorem Expr.resolves_evalNumber? (hinvoke : ResolvesCalls F G funcs invoke) (e : Option Expr)
    (hc : Expr.BoundChecked F (varTy? G L) e) :
    ResolvesTo G funcs L L _ (Expr.evalNumber? invoke e) := by
  match e with
  | none => exact .pure _
  | some e => exact (Expr.resolves_eval hinvoke e hc.2).bind fun v => (ResolvesTo.located
      (ResolvesTo.sequential.number v)).bind fun _ => .pure _

end

variable (hinvoke : ResolvesCalls F G funcs invoke)
include hinvoke

theorem Expr.resolves_evalNumber {e : Expr} (hc : e.Checked F (varTy? G L)) :
    ResolvesTo G funcs L L _ (e.evalNumber invoke) :=
  (Expr.resolves_eval hinvoke e hc).bind fun v => .located (ResolvesTo.sequential.number v)

theorem Expr.resolves_evalNumberOr {e : Option Expr} (missing : Float) (hc : Expr.BoundChecked F (varTy? G L) e) :
    ResolvesTo G funcs L L _ (Expr.evalNumberOr invoke missing e) := by
  cases e with
  | none => exact .pure _
  | some e => exact Expr.resolves_evalNumber hinvoke hc.2

theorem Expr.resolves_assign (target : Expr) (v : Value) (hc : target.Checked F (varTy? G L)) :
    ResolvesTo G funcs L L _ (target.assign invoke v) := by
  have hP : Sequential (ResolvesTo G funcs L L) := ResolvesTo.sequential
  cases target with
  | var m name =>
    obtain ⟨-, τ, hτ, -⟩ := hc
    exact .assign (by rw [hτ]; rfl)
  | index m left key =>
    obtain ⟨-, hl, hk⟩ := hc
    refine (Expr.resolves_eval hinvoke left hl).bind fun l => (Expr.resolves_eval hinvoke key hk).bind fun k => ?_
    split
    · exact .located (hP.setElem _ _ _)
    · exact hP.setField _ _ _
    · exact hP.internal _ rfl
  | dot m left key =>
    obtain ⟨-, -, hc⟩ := hc
    refine (Expr.resolves_eval hinvoke left hc).bind fun l => ?_
    split
    · exact hP.setField _ _ _
    · exact hP.internal _ rfl
  | num | str | bool | array | map | call | unary | binary | slice | group | assert | any => exact hP.internal _ rfl

end

/-! ### Statements -/

namespace Eval.ResolvesTo
variable {G : Vars} {funcs : List Function} {L L' : List Scoping}

theorem statement {m : Eval Flow} (token : Token) (hm : ResolvesTo G funcs L L' _ m) :
    ResolvesTo G funcs L L' _ (Eval.statement token m) := by
  have htick : ResolvesTo G funcs L L _ Eval.tick := by
    refine .quiet (fun σ => ?_) fun σ f hf => ?_
    · rw [run_tick]
      split <;> rfl
    · rw [run_tick] at hf
      split at hf
      · cases hf
        rfl
      · cases hf
  exact htick.bind fun _ => .located hm

/-- Declares a variable in the innermost block. -/
theorem insert (var : Var) (v : Value) :
    ResolvesTo G funcs L (declareIn L var) _ (Eval.modifyFrames (·.insert var.name v)) := by
  refine .modifyFrames (fun fs => .insert fs var.name v) fun fs hfs => ?_
  cases L with
  | nil => exact hfs.mono (.insert fs var.name v)
  | cons l L => exact hfs.insert var.name var.ty v

theorem declare (var : Var) (v : Value) : ResolvesTo G funcs L (declareIn L var) _ (Eval.declare var v) :=
  (ResolvesTo.insert var _).bind fun _ => .pure _

theorem bindLoopVar (var : Option Var) (v : Value) :
    ResolvesTo G funcs ([] :: L) (loopScoping var :: L) _ (Eval.bindLoopVar var v) := by
  cases var with
  | none => exact .pure _
  | some x => exact .insert x v

theorem condition (token : Token) (v : Value) : ResolvesTo G funcs L L _ (Eval.condition token v) := by
  unfold Eval.condition
  split
  · exact .pure _
  · exact .located (ResolvesTo.sequential.internal _ rfl)

end Eval.ResolvesTo

section
variable {F : Sigs} {G : Vars} {funcs : List Function} {invoke : Invoke} {fuel : Nat} {result : Option Ty}
  (hinvoke : ResolvesCalls F G funcs invoke)
include hinvoke

theorem Range.resolves_run {L : List Scoping} {τ : Option Ty} {round : Value → Eval Flow} (range : Range)
    (hc : range.Checked F (varTy? G L) τ) (hround : ∀ v, ResolvesTo G funcs L L _ (round v)) :
    ResolvesTo G funcs L L _ (range.run invoke fuel round) := by
  have hP : Sequential (ResolvesTo G funcs L L) := ResolvesTo.sequential
  match range with
  | .step start stop stride =>
    obtain ⟨h₁, h₂, h₃, -⟩ := hc
    rw [Range.run_step]
    refine (Expr.resolves_evalNumberOr hinvoke _ h₁).bind fun x => (Expr.resolves_evalNumber hinvoke h₂.2).bind
      fun last => (Expr.resolves_evalNumberOr hinvoke _ h₃).bind fun step => ?_
    split
    · exact .located (hP.fail _ rfl)
    · exact hP.countLoop hround _ _ _ _
  | .over e =>
    refine (Expr.resolves_eval hinvoke e hc.1).bind fun v => ?_
    split
    · exact hP.arrayLoop hround _ _ _
    · exact hP.textLoop hround _
    · exact hP.bind hP.store fun _ => hP.mapLoop hround _ _
    · exact .located (hP.internal _ rfl)

end

section
variable {F : Sigs} {G : Vars} {funcs : List Function} {invoke : Invoke} {fuel : Nat} {result : Option Ty}

mutual

theorem Stmt.resolves_run (hinvoke : ResolvesCalls F G funcs invoke) {L : List Scoping} {inLoop : Bool}
    (s : Stmt) (hc : s.Checked F G result L inLoop) :
    ResolvesTo G funcs L (s.scopings L) _ (s.run invoke fuel) := by
  have hP : Sequential (ResolvesTo G funcs L L) := ResolvesTo.sequential
  match s with
  | .empty .. | .func .. | .on .. | .brk .. | .ret _ _ none => exact .statement _ (.pure _)
  | .typedDecl token comment var value | .inferredDecl token comment var value =>
    exact .statement _ ((Expr.resolves_eval hinvoke value hc.1).bind fun v => .declare var v)
  | .assign token comment target value =>
    obtain ⟨hvalue, htarget, -⟩ := hc
    exact .statement _ ((Expr.resolves_eval hinvoke value hvalue).bind fun v =>
      (Expr.resolves_assign hinvoke target v htarget).bind fun _ => .pure _)
  | .call token comment name args ty =>
    refine .statement _ (.withValues (Expr.resolves_evalList hinvoke args #[] hc.2) fun vs hvs => ?_)
    exact (hinvoke L name vs.toList fun sig hsig => hvs ▸ hc.1 sig hsig).bind fun _ => .pure _
  | .ret token comment (some value) =>
    exact .statement _ ((Expr.resolves_eval hinvoke value hc.2).bind fun _ => .pure _)
  | .cond token comment first more none =>
    obtain ⟨hfirst, hmore, -⟩ := hc
    exact .statement _ (hP.orElse (Branch.resolves_run hinvoke first hfirst)
      (hP.orElse (Branch.resolves_runFirst hinvoke more hmore) (.pure _)))
  | .cond token comment first more (some b) =>
    obtain ⟨hfirst, hmore, hlast⟩ := hc
    exact .statement _ (hP.orElse (Branch.resolves_run hinvoke first hfirst)
      (hP.orElse (Branch.resolves_runFirst hinvoke more hmore) (Block.resolves_run hinvoke b hlast)))
  | .loop token b => exact .statement _ (hP.whileLoop (Branch.resolves_run hinvoke b hc) fuel)
  | .each token comment var range body =>
    -- each round declares the loop variable anew in the frame of the loop
    have hround (v : Value) : ResolvesTo G funcs ([] :: L) ([] :: L) _
        (Eval.bindLoopVar var v >>= fun _ => body.run invoke fuel) :=
      ((ResolvesTo.bindLoopVar var v).bind fun _ => Block.resolves_run hinvoke body hc.2).keep
    have hrange : range.Checked F (varTy? G ([] :: L)) (var.map (·.ty)) := hc.1
    exact .statement _ (.nested (Range.resolves_run hinvoke range hrange hround))

theorem Branch.resolves_run (hinvoke : ResolvesCalls F G funcs invoke) {L : List Scoping} {inLoop : Bool}
    (b : Branch)
    (hc : b.Checked F G result L inLoop) : ResolvesTo G funcs L L _ (b.run invoke fuel) := by
  match b with
  | .mk token comment test body =>
    obtain ⟨htest, -, hbody⟩ := hc
    refine (Expr.resolves_eval hinvoke test htest).bind fun v => (ResolvesTo.condition _ v).bind fun holds => ?_
    split
    · exact (Block.resolves_run hinvoke body hbody).bind fun _ => .pure _
    · exact .pure _

theorem Branch.resolves_runFirst (hinvoke : ResolvesCalls F G funcs invoke) {L : List Scoping}
    {inLoop : Bool} (bs : List Branch)
    (hc : Branch.AllChecked F G result L inLoop bs) : ResolvesTo G funcs L L _ (Branch.runFirst invoke fuel bs) := by
  match bs with
  | [] => exact .pure _
  | b :: bs =>
    refine (Branch.resolves_run hinvoke b hc.1).bind fun o => ?_
    cases o with
    | some flow => exact .pure _
    | none => exact Branch.resolves_runFirst hinvoke bs hc.2

theorem Block.resolves_run (hinvoke : ResolvesCalls F G funcs invoke) {L : List Scoping} {inLoop : Bool}
    (b : Block) (hc : b.Checked F G result L inLoop) :
    ResolvesTo G funcs L L _ (b.run invoke fuel) := by
  match b with
  | .mk token comment stmts => exact .nested (Stmt.resolves_runAll hinvoke stmts hc)

theorem Stmt.resolves_runAll (hinvoke : ResolvesCalls F G funcs invoke) {L : List Scoping} {inLoop : Bool}
    (ss : List Stmt)
    (hc : Stmt.AllChecked F G result L inLoop ss) : ResolvesTo G funcs L L _ (Stmt.runAll invoke fuel ss) := by
  match ss with
  | [] => exact .pure _
  | s :: ss =>
    have hall : ResolvesTo G funcs L (s.scopings L) _ (Stmt.runAll invoke fuel (s :: ss)) := by
      refine (Stmt.resolves_run hinvoke s hc.1).bind fun flow => ?_
      cases flow with
      | next => exact Stmt.resolves_runAll hinvoke ss hc.2
      | ret v => exact .pure _
      | brk => exact .pure _
    exact hall.keep

end

variable (hinvoke : ResolvesCalls F G funcs invoke)
include hinvoke

end

/-! ### Calls and runs -/

section
variable {G : Vars} {funcs : List Function} {L : List Scoping} {args : List Value}

/-- Gives variables their values, if there are enough of them. -/
theorem Eval.ResolvesTo.bindVars {b : Var × Value → PUnit → Eval (ForInStep PUnit)}
    (hb : ∀ x l, ∃ step : Eval Unit, b x ⟨⟩ = (step >>= fun _ => Pure.pure (.yield ⟨⟩)) ∧
      ResolvesTo G funcs [l] [l.declare x.1.name x.1.ty] _ step)
    {params : List Var} {l : Scoping} (hlen : params.length ≤ args.length) :
    ResolvesTo G funcs [l] [params.foldl (fun l x => l.declare x.name x.ty) l] _
      (forIn (params.zip args) PUnit.unit b) := by
  induction params generalizing l args with
  | nil => exact .pure _
  | cons x params ih =>
    cases args with
    | nil => cases hlen
    | cons v args =>
      obtain ⟨step, hstep, hresolves⟩ := hb (x, v) l
      rw [List.zip_cons_cons, List.forIn_cons, hstep]
      simp only [bind_assoc, pure_bind]
      exact hresolves.bind fun _ => ih (Nat.le_of_succ_le_succ hlen)

theorem Signature.resolves_bind {sig : Signature} (hn : sig.TakesCount args.length)
    (hvariadic : ∀ x, sig.variadic = some x → sig.params = []) :
    ResolvesTo G funcs [[]] [sig.scoping] _ (sig.bind args) := by
  unfold Signature.bind Signature.scoping
  cases hvar : sig.variadic with
  | none =>
    exact (ResolvesTo.bindVars (fun x l => ⟨_, rfl, .insert x.1 x.2⟩) (Nat.le_of_eq (hn hvar))).bind
      fun _ => .pure _
  | some x =>
    -- the parameter that takes all arguments is the only one
    have hnil := hvariadic x hvar
    simp only [hnil, List.zip_nil_left, List.forIn_nil, pure_bind]
    exact (ResolvesTo.sequential.newArray _ _).bind fun rest => .insert { x with ty := .array x.ty } rest

theorem Handler.resolves_bind {h : Handler} (hlen : h.params.length ≤ args.length) :
    ResolvesTo G funcs [[]] [paramsScoping h.params] _ (h.bind args) := by
  refine (ResolvesTo.bindVars (fun x l => ?_) hlen).bind fun _ => .pure _
  cases hsame : x.1.ty.same x.2.typeOf with
  | true =>
    exact ⟨_, by simp only [hsame, Bool.not_true, Bool.false_eq_true, if_false], .insert x.1 x.2⟩
  | false =>
    refine ⟨Eval.located x.1.token (Eval.fail (.panic (.anyConversion x.1.ty x.2.typeOf))) >>= fun (_ : Unit) =>
      Eval.modifyFrames (·.insert x.1.name x.2), by
        simp only [hsame, Bool.not_false, if_true, bind_assoc], ?_⟩
    exact (ResolvesTo.located (ResolvesTo.sequential.fail _ rfl)).bind fun _ => .insert x.1 x.2

theorem Function.resolves_call {F : Sigs} {f : Function} {invoke : Invoke} {fuel : Nat}
    (hinvoke : ResolvesCalls F G funcs invoke) (hc : f.Checked F G) (hn : f.signature.TakesCount args.length) :
    ResolvesTo G funcs L L _ (f.call invoke fuel args) := by
  refine .inBody [f.signature.scoping] ((Signature.resolves_bind hn fun x hx => (hc.variadic x hx).2).bind fun _ =>
    (Stmt.resolves_runAll hinvoke f.body.stmts hc.body).bind fun flow => ?_)
  split <;> exact .pure _

end

section
variable {G : Vars} {p : Program} {L : List Scoping}

/-- A name that no function has is the name of a missing one. -/
theorem Eval.ResolvesTo.unknownFunction {α : Type} {funcs : List Function} {name : String}
    (hb : Builtin.ofName? name = none) (hfind : funcs.find? (·.signature.name == name) = none) :
    ResolvesTo G funcs L L α (Eval.internal (.unknownFunction name)) := by
  refine fun σ hσ => ⟨.refl _, fun _ ha => (by cases ha), fun e he => ?_⟩
  cases he
  exact ⟨hb, fun f hf => by simpa using List.find?_eq_none.1 hfind f hf⟩

variable (hc : p.Checked G)
include hc

/-- Calls resolve if those at a lower depth do. -/
theorem Program.resolves_invoke_of {fuel : Nat}
    (ih : ∀ n, fuel = n + 1 → ResolvesCalls p.func? G p.funcs (invoke p.funcs n)) :
    ResolvesCalls p.func? G p.funcs (invoke p.funcs fuel) := by
  intro L name args hn
  unfold Program.func? at hn
  unfold invoke
  cases hb : Builtin.ofName? name with
  | some b => exact ResolvesTo.sequential.builtin args b
  | none =>
    rw [hb] at hn
    cases hfind : p.funcs.find? (·.signature.name == name) with
    | none => exact .unknownFunction hb hfind
    | some f =>
      rw [hfind] at hn
      have hname : f.signature.name = name := by simpa using List.find?_some hfind
      cases fuel with
      | zero => exact ResolvesTo.sequential.outOfFuel
      | succ n =>
        exact Function.resolves_call (ih n rfl) (hc.funcs f (List.mem_of_find?_eq_some hfind) (hname ▸ hb))
          (hn f.signature rfl)

theorem Program.resolves_invoke (fuel : Nat) : ResolvesCalls p.func? G p.funcs (invoke p.funcs fuel) := by
  induction fuel with
  | zero => exact Program.resolves_invoke_of hc fun n hn => by cases hn
  | succ fuel ih => exact Program.resolves_invoke_of hc fun n hn => by cases hn; exact ih

theorem Program.resolves_run (fuel : Nat) : ResolvesTo G p.funcs [] [] _ (p.run fuel) :=
  (Stmt.resolves_runAll (Program.resolves_invoke hc fuel) p.stmts hc.stmts).bind fun _ => .pure _

theorem Handler.resolves_run {h : Handler} (hh : h ∈ p.handlers) (fuel : Nat) {args : List Value}
    (hlen : h.params.length ≤ args.length) : ResolvesTo G p.funcs L L _ (h.run p.funcs fuel args) :=
  .inBody _ ((Handler.resolves_bind hlen).bind fun _ =>
    (Stmt.resolves_runAll (Program.resolves_invoke hc fuel) h.body.stmts (hc.handlers h hh)).bind fun _ => .pure _)

end

/-! ### Declarations that have run -/

/-- From where there are globals only, the evaluation declares `name` if it has a value. -/
def Eval.Declares (name : String) (α : Type) (m : Eval α) : Prop :=
  ∀ σ a σ', σ.frames.locals = [] → m.run.run σ = (.ok a, σ') → name ∈ σ'.frames.globals.names

namespace Eval.Declares
variable {α β : Type} {name : String} {m : Eval α}

/-- The second step of two declares the name. -/
theorem after {f : α → Eval β} (hm : Relates Frames.Kept α m)
    (hf : ∀ σ a σ', m.run.run σ = (.ok a, σ') → Declares name β (f a)) : Declares name β (m >>= f) := by
  intro σ b σ' hσ hrun
  have hkept := hm σ
  rw [run_bind] at hrun
  rcases hr : m.run.run σ with ⟨e | a, σ₁⟩ <;> rw [hr] at hrun hkept
  · cases hrun
  · exact hf σ a σ₁ hr σ₁ b σ' (hkept.locals_eq_nil hσ) hrun

/-- The first step of two declares the name. -/
theorem before {f : α → Eval β} (hm : Declares name α m) (hf : ∀ a, Relates Frames.Kept β (f a)) :
    Declares name β (m >>= f) := by
  intro σ b σ' hσ hrun
  rw [run_bind] at hrun
  rcases hr : m.run.run σ with ⟨e | a, σ₁⟩ <;> rw [hr] at hrun
  · cases hrun
  · have hkept := hf a σ₁
    have hrun : (f a).run.run σ₁ = (.ok b, σ') := hrun
    rw [hrun] at hkept
    exact hkept.globals (hm σ a σ₁ hσ hr)

theorem located {token : Token} (hm : Declares name α m) : Declares name α (Eval.located token m) := by
  intro σ a σ' hσ hrun
  rw [run_located] at hrun
  rcases hr : m.run.run σ with ⟨(f | _) | b, σ₁⟩ <;> rw [hr] at hrun <;> cases hrun
  exact hm σ a σ' hσ hr

theorem insert (name : String) (v : Value) : Declares name Unit (Eval.modifyFrames (·.insert name v)) := by
  intro σ a σ' hσ hrun
  cases hrun
  have hself := σ.frames.get?_insert_self name v
  rw [Frames.get?_isSome_iff] at hself
  rw [(Frames.Kept.insert σ.frames name v).locals_eq_nil hσ] at hself
  exact hself.resolve_left (by simp)

end Eval.Declares

section
variable {funcs : List Function} {depth fuel : Nat}

theorem Stmt.declares_run {s : Stmt} {v : Var} (hs : s.declared? = some v) :
    Declares v.name _ (s.run (invoke funcs depth) fuel) := by
  have hkept := kept_compositional
  have heval (e : Expr) := hkept.eval (hkept.invoke funcs depth) e
  cases s with
  | typedDecl token comment var value | inferredDecl token comment var value =>
    cases hs
    exact .after hkept.tick fun _ _ _ _ => .located <| .after (heval value) fun _ _ _ _ =>
      .before (.insert _ _) fun _ => hkept.pure _
  | _ => cases hs

/-- If no statement fails, all declarations among them have run. -/
theorem Stmt.declares_runAll {F : Sigs} {G : Vars} {L : List Scoping} {ss : List Stmt}
    (hc : Stmt.AllChecked F G none L false ss) {v : Var} (hv : v ∈ declaredIn ss) :
    Declares v.name _ (Stmt.runAll (invoke funcs depth) fuel ss) := by
  have hkept := kept_compositional
  induction ss generalizing L with
  | nil => cases hv
  | cons s ss ih =>
    obtain ⟨v', hv', hs⟩ := List.mem_filterMap.1 hv
    rcases List.mem_cons.1 hv' with rfl | hv'
    · refine .before (Stmt.declares_run hs) fun flow => ?_
      cases flow with
      | next => exact hkept.runAll fuel (hkept.invoke funcs depth) ss
      | ret | brk => exact hkept.pure _
    · refine .after (hkept.run fuel (hkept.invoke funcs depth) s) fun σ flow σ' hrun => ?_
      cases Stmt.next_of_run hc.1 hrun
      exact ih hc.2 (List.mem_filterMap.2 ⟨v', hv', hs⟩)

end

/-! ### Globals of a program -/

namespace Parsing.Outline
variable {o : Outline} {name : String}

theorem outermost_declare {v : Var} (h : ((o.declare v).outermost name).isSome) :
    v.name = name ∨ (o.outermost name).isSome := by
  unfold declare at h
  unfold outermost at h ⊢
  by_cases hanonymous : v.name = "_"
  · rw [Scopes.declare_anonymous _ _ hanonymous] at h
    exact .inr h
  · cases hss : o.scopes with
    | nil => simp [hss, Scopes.declare, hanonymous] at h
    | cons s ss =>
      simp only [hss, Scopes.declare_cons s ss true hanonymous] at h
      cases ss with
      | nil =>
        simp only [List.getLast?_singleton, Option.bind_some, ← Scope.declares_eq, Scope.declares] at h ⊢
        simpa [or_comm] using h
      | cons s' ss => exact .inr h

/-- The variables of the outermost scope are those that were there and those that the statements declare. -/
theorem outermost_afterAll {stmts : List Stmt} (h : ((o.afterAll stmts).outermost name).isSome) :
    (∃ v ∈ declaredIn stmts, v.name = name) ∨ (o.outermost name).isSome := by
  induction stmts generalizing o with
  | nil => exact .inr h
  | cons s stmts ih =>
    rcases ih (o := o.after s) h with ⟨v, hv, hname⟩ | hs
    · refine .inl ⟨v, ?_, hname⟩
      rw [declaredIn, List.filterMap_cons]
      split
      · exact hv
      · exact List.mem_cons_of_mem _ hv
    · cases s with
      | typedDecl _ _ v _ | inferredDecl _ _ v _ =>
        exact (outermost_declare hs).imp (fun hname => ⟨v, List.mem_cons_self, hname⟩) id
      | _ => exact .inr hs

theorem outermost_withGlobals (h : (o.withGlobals.outermost name).isSome) : name = "err" ∨ name = "errmsg" := by
  have h : (Scope.ty? ⟨.program, #[⟨.builtin "err" .bool, true⟩, ⟨.builtin "errmsg" .string, true⟩], none⟩
      name).isSome := h
  rw [← Scope.declares_eq] at h
  have hname : "err" = name ∨ "errmsg" = name := by simpa [Scope.declares, Var.builtin] using h
  exact hname.imp Eq.symm Eq.symm

end Parsing.Outline

/-! ### Interpreters -/

namespace Interpreter

/-- If the outcome of a step is that a name is not found, the name is missing. -/
structure ResolvesNames (G : Vars) (p : Program) (r : Except Interrupt Unit × Interpreter × World) : Prop where
  funcs : r.2.1.funcs = p.funcs
  handlers : r.2.1.handlers = p.handlers
  missing : ∀ e, r.1 = .error (.failed e) → e.cause.Missing G p.funcs r.2.1.frames.globals

section
variable {G : Vars} {p : Program} {i : Interpreter} {w : World}

theorem ResolvesNames.of_eval {m : Eval Unit} (hfuncs : i.funcs = p.funcs) (hhandlers : i.handlers = p.handlers)
    (hm : ResolvesTo G p.funcs [] [] _ m) : ResolvesNames G p (i.eval w m) :=
  ⟨hfuncs, hhandlers, (hm ⟨w, i.frames⟩ fun _ hname => .inl hname).missing⟩

variable (hc : p.Checked G)
include hc

theorem ResolvesNames.run {source : String} (hp : Program.parse source .standard = .ok p) (fuel : Nat) :
    ResolvesNames G p (i.run w source fuel) := by
  unfold Interpreter.run
  rw [hp]
  exact .of_eval rfl rfl (Program.resolves_run hc fuel)

theorem ResolvesNames.handle (hfuncs : i.funcs = p.funcs) (hhandlers : i.handlers = p.handlers) (event : String)
    (params : List Value) (fuel : Nat) : ResolvesNames G p (i.handle w event params fuel) := by
  refine .of_eval hfuncs hhandlers ?_
  dsimp only
  rw [hfuncs, hhandlers]
  cases hstopped : w.stopped with
  | true => exact .fail_bind (c := .stopped) rfl
  | false =>
    simp only [Bool.false_eq_true, if_false]
    cases hfind : p.handlers.find? (·.name == event) with
    | none => exact ResolvesTo.sequential.internal (.noHandler event) rfl
    | some hd =>
      dsimp only
      split
      · exact .fail_bind (c := .internal (.missingParameters ..)) rfl
      · next hlen => exact Handler.resolves_run hc (List.mem_of_find?_eq_some hfind) fuel (Nat.le_of_not_lt hlen)

theorem Reached.resolvesNames {source : String} {r : Except Interrupt Unit × Interpreter × World}
    (hp : Program.parse source .standard = .ok p) (h : Reached source r) : ResolvesNames G p r := by
  induction h with
  | run fuel _ => exact .run hc hp fuel
  | event _ _ fuel ih => exact .handle hc ih.funcs ih.handlers _ _ fuel
  | host _ _ ih => exact ⟨ih.funcs, ih.handlers, ih.missing⟩

end

theorem Reached.history {source : String} {r : Except Interrupt Unit × Interpreter × World}
    (h : Reached source r) : History r.2.1 := by
  have hfresh : History fresh.1 := .start {}
  induction h with
  | @run w fuel _ => exact hfresh.run w source fuel
  | @event r event params _ _ fuel ih => exact ih.handle _ event _ fuel
  | host _ _ ih => exact ih

/-- The only variable that is not found when a program runs and handles events is one of the whole program whose
declaration has not run yet, and the only function that is not found is one that the program does not declare. -/
theorem reached_resolves {source : String} {p : Program} {r : Except Interrupt Unit × Interpreter × World}
    {e : Failure} (hp : Program.parse source .standard = .ok p) (h : Reached source r) (he : r.1 = .error (.failed e)) :
    (∀ name, e.cause = .internal (.unboundVariable name) →
      (∃ v ∈ declaredIn p.stmts, v.name = name) ∧ r.2.1.global? name = none) ∧
    (∀ name, e.cause = .internal (.unknownFunction name) →
      Builtin.ofName? name = none ∧ ∀ f ∈ p.funcs, f.signature.name ≠ name) := by
  obtain ⟨o, -, hc, -⟩ := Program.checked_of_read (Program.read_of_parse hp)
  have hmissing := (h.resolvesNames hc hp).missing e he
  obtain ⟨hlocals, herr, herrmsg⟩ := h.history.frames
  refine ⟨fun name hcause => ?_, fun name hcause => ?_⟩ <;> rw [hcause] at hmissing
  · obtain ⟨hglobal, hnone⟩ := hmissing
    have hnot : name ∉ r.2.1.frames.globals.names := by
      rw [← Frame.get?_isSome_iff, hnone]
      exact Bool.false_ne_true
    refine ⟨(Parsing.Outline.outermost_afterAll hglobal).resolve_right fun hfirst => ?_, ?_⟩
    · rcases Parsing.Outline.outermost_withGlobals hfirst with rfl | rfl
      · exact hnot herr
      · exact hnot herrmsg
    · rw [global?, Frames.get?, hlocals, hnone]
      rfl
  · exact hmissing

/-- All variables of the whole program are there. -/
def HasDeclared (p : Program) (i : Interpreter) : Prop :=
  ∀ v ∈ declaredIn p.stmts, (i.global? v.name).isSome

/-- After a run that ends without an error, all variables of the whole program are there. -/
theorem hasDeclared_run {source : String} {p : Program} {i : Interpreter} {w : World} {fuel : Nat}
    (hp : Program.parse source .standard = .ok p) (hi : i.frames.locals = [])
    (hok : (i.run w source fuel).1 = .ok ()) : HasDeclared p (i.run w source fuel).2.1 := by
  obtain ⟨G, hc⟩ := Program.checked_of_parse hp
  intro v hv
  have hdeclares : Declares v.name _ (p.run fuel) :=
    .before (Stmt.declares_runAll hc.stmts hv) fun _ => kept_compositional.pure _
  unfold Interpreter.run at hok ⊢
  rw [hp] at hok ⊢
  rw [global?, Frames.get?_isSome_iff]
  exact .inr (hdeclares ⟨w, i.frames⟩ () _ hi (Prod.ext hok rfl))

/-- Once all variables of the whole program are there, they stay when it handles an event, and no variable is
missing. -/
theorem handleData_finds {source : String} {p : Program} {r : Except Interrupt Unit × Interpreter × World}
    {event : String} {params : List Datum} (hp : Program.parse source .standard = .ok p) (h : Reached source r)
    (hall : HasDeclared p r.2.1) (hparams : Datum.AreFor params event) (fuel : Nat) :
    HasDeclared p (r.2.1.handleData r.2.2 event params fuel).2.1 ∧
      ∀ e name, (r.2.1.handleData r.2.2 event params fuel).1 = .error (.failed e) →
        e.cause ≠ .internal (.unboundVariable name) := by
  have hreached := h.event hparams fuel
  have hstays : HasDeclared p (r.2.1.handleData r.2.2 event params fuel).2.1 := by
    intro v hv
    have huntouched := untouched_handle r.2.1 { r.2.2 with store := (Datum.toValues r.2.2.store params).2 } event
      (Datum.toValues r.2.2.store params).1 fuel
    exact (Frames.Widens.of_locals huntouched.locals huntouched.globals).get? (hall v hv)
  refine ⟨hstays, fun e name he hcause => ?_⟩
  obtain ⟨⟨v, hv, rfl⟩, hnone⟩ := (reached_resolves hp hreached he).1 name hcause
  have hsome := hstays v hv
  rw [hnone] at hsome
  cases hsome

/-- A program that calls a function before the variable is declared that the function reads. -/
def earlySource : String :=
  "f\nx := 1\nfunc f\n    print x\nend\nprint x\n"

/-- Whether a run ended because a variable was not found. -/
def missesVariable (name : String) : Except Interrupt Unit → Bool
  | .error (.failed ⟨.internal (.unboundVariable found), _⟩) => found == name
  | _ => false

theorem earlySource_resolves : ∃ p r e, Program.parse earlySource .standard = .ok p ∧ Reached earlySource r ∧
    r.1 = .error (.failed e) ∧ e.cause = .internal (.unboundVariable "x") ∧
    (∃ v ∈ declaredIn p.stmts, v.name = "x") ∧ r.2.1.global? "x" = none := by
  have hmisses : missesVariable "x" (fresh.1.run { store := fresh.2 } earlySource 5).1 := by decide +kernel
  have hreached : Reached earlySource (fresh.1.run { store := fresh.2 } earlySource 5) := .run 5 rfl
  have hparses : (Program.parse earlySource .standard).toOption.isSome := by decide +kernel
  generalize fresh.1.run { store := fresh.2 } earlySource 5 = r at hmisses hreached
  cases hp : Program.parse earlySource .standard with
  | error problems => rw [hp] at hparses; cases hparses
  | ok p =>
    unfold missesVariable at hmisses
    split at hmisses
    · next found place hr =>
      obtain rfl := beq_iff_eq.1 hmisses
      exact ⟨p, r, _, rfl, hreached, hr, rfl, (reached_resolves hp hreached hr).1 _ rfl⟩
    · cases hmisses

end Interpreter

end TinyScript
