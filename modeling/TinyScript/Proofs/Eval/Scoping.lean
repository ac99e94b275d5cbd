import TinyScript.Proofs.Eval.Compositional
import TinyScript.Session

/-!
# What evaluations leave of the frames

An expression leaves the frames above the globals alone, whatever calls are in it and however it ends:
a body gets frames of its own and the old ones are back after it. A statement declares in the innermost
frame only, and closes the frames that it opens. Between runs and events an interpreter has the globals
and no other frame.
-/

namespace TinyScript

/-- The names of the variables in a frame. -/
def Frame.names (f : Frame) : List String :=
  f.map Prod.fst

namespace Frames

/-- All frames, the innermost one first. -/
def stack (f : Frames) : List Frame :=
  f.locals ++ [f.globals]

/-- The globals have the variables in which conversions note their errors. -/
def HasErrorVars (f : Frames) : Prop :=
  "err" ∈ f.globals.names ∧ "errmsg" ∈ f.globals.names

end Frames

/-! ### Names of frames -/

namespace Frame
variable {f : Frame} {name : String} {v : Value}

theorem get?_isSome_iff : (f.get? name).isSome ↔ name ∈ f.names := by
  induction f with
  | nil => simp [get?, names]
  | cons x f ih =>
    obtain ⟨n, w⟩ := x
    by_cases hn : name = n
    · simp [get?, names, hn]
    · have hlookup : get? ((n, w) :: f) name = get? f name := by
        simp [get?, List.lookup_cons, beq_false_of_ne hn]
      rw [hlookup, ih]
      simp [names, hn]

theorem names_replace (f : Frame) : (replace name v f).names = f.names := by
  induction f with
  | nil => rfl
  | cons x f ih =>
    obtain ⟨n, w⟩ := x
    unfold replace
    split
    · rfl
    · exact congrArg (n :: ·) ih

theorem names_insert_of_mem (h : name ∈ f.names) : (f.insert name v).names = f.names := by
  rw [insert, if_pos (get?_isSome_iff.2 h), names_replace]

theorem names_subset_insert (f : Frame) : f.names ⊆ (f.insert name v).names := by
  unfold insert
  split
  · rw [names_replace]
    exact fun _ => id
  · exact List.subset_cons_self _ _

end Frame

namespace Frames
variable {f g k : Frames} {name : String} {v : Value}

/-- From `f` to `g` no frame but the globals changes, and these lose no name. -/
structure Untouched (f g : Frames) : Prop where
  locals : g.locals = f.locals
  globals : f.globals.names ⊆ g.globals.names
  names : f.HasErrorVars → g.globals.names = f.globals.names

/-- From `f` to `g` names are declared in the innermost frame only. -/
structure Kept (f g : Frames) : Prop where
  length : g.locals.length = f.locals.length
  outer : g.locals.tail.map Frame.names = f.locals.tail.map Frame.names
  globals : f.globals.names ⊆ g.globals.names
  names : f.locals ≠ [] → f.HasErrorVars → g.globals.names = f.globals.names

theorem HasErrorVars.mono (h : f.globals.names ⊆ g.globals.names) (hf : f.HasErrorVars) :
    g.HasErrorVars :=
  ⟨h hf.1, h hf.2⟩

namespace Untouched

theorem refl (f : Frames) : Untouched f f :=
  ⟨rfl, fun _ => id, fun _ => rfl⟩

theorem trans (h : Untouched f g) (h' : Untouched g k) : Untouched f k :=
  ⟨h'.locals.trans h.locals, fun _ hx => h'.globals (h.globals hx),
    fun he => (h'.names (he.mono h.globals)).trans (h.names he)⟩

/-- A global variable gets a value. -/
theorem insertGlobal (hname : f.HasErrorVars → name ∈ f.globals.names) :
    Untouched f (f.insertGlobal name v) :=
  ⟨rfl, Frame.names_subset_insert _, fun he => Frame.names_insert_of_mem (hname he)⟩

theorem kept (h : Untouched f g) : Kept f g :=
  ⟨by rw [h.locals], by rw [h.locals], h.globals, fun _ => h.names⟩

end Untouched

namespace Kept

theorem refl (f : Frames) : Kept f f :=
  (Untouched.refl f).kept

theorem trans (h : Kept f g) (h' : Kept g k) : Kept f k := by
  refine ⟨h'.length.trans h.length, h'.outer.trans h.outer, fun _ hx => h'.globals (h.globals hx),
    fun hne he => ?_⟩
  have hne' : g.locals ≠ [] := by
    rw [← List.length_pos_iff, h.length]
    exact List.length_pos_iff.2 hne
  exact (h'.names hne' (he.mono h.globals)).trans (h.names hne he)

/-- Where there are globals only, no other frame comes. -/
theorem locals_eq_nil (h : Kept f g) (hf : f.locals = []) : g.locals = [] := by
  rw [← List.length_eq_zero_iff, h.length, hf]
  rfl

/-- A variable is declared. -/
theorem insert (f : Frames) (name : String) (v : Value) : Kept f (f.insert name v) := by
  obtain ⟨globals, locals⟩ := f
  cases locals with
  | nil => exact ⟨rfl, rfl, Frame.names_subset_insert _, fun h => absurd rfl h⟩
  | cons l ls => exact ⟨rfl, rfl, fun _ => id, fun _ _ => rfl⟩

theorem assignIn {ls ls' : List Frame} (h : Frames.assignIn name v ls = some ls') :
    ls'.map Frame.names = ls.map Frame.names := by
  induction ls generalizing ls' with
  | nil => cases h
  | cons l ls ih =>
    unfold Frames.assignIn at h
    split at h
    · cases h
      simp only [List.map_cons, Frame.names_replace]
    · obtain ⟨ks, hks, rfl⟩ := Option.map_eq_some_iff.1 h
      simp only [List.map_cons, ih hks]

/-- A variable that is there gets another value. -/
theorem assign? (h : f.assign? name v = some g) : Kept f g := by
  unfold Frames.assign? at h
  split at h
  · next locals hlocals =>
    cases h
    have hnames := assignIn hlocals
    refine ⟨?_, ?_, fun _ => id, fun _ _ => rfl⟩
    · simpa using congrArg List.length hnames
    · rw [List.map_tail, List.map_tail, hnames]
  · split at h
    · cases h
      have hnames : (f.globals.replace name v).names = f.globals.names := Frame.names_replace _
      refine ⟨rfl, rfl, ?_, fun _ _ => hnames⟩
      rw [hnames]
      exact fun _ => id
    · cases h

/-- A block of its own declares nothing outside of it. -/
theorem unnest (h : Kept f.nest g) : Kept f g.unnest := by
  have hnest : (f.nest).locals ≠ [] := List.cons_ne_nil _ _
  have hnames : g.locals.tail.map Frame.names = f.locals.map Frame.names := h.outer
  refine ⟨?_, ?_, h.globals, fun _ he => h.names hnest he⟩
  · show g.locals.tail.length = f.locals.length
    simpa using congrArg List.length hnames
  · show (g.locals.tail).tail.map Frame.names = f.locals.tail.map Frame.names
    rw [List.map_tail, hnames, List.map_tail]

/-- A body sees the globals only. -/
theorem leaveBody (h : Kept f.enterBody g) : Untouched f (g.leaveBody f.locals) :=
  ⟨rfl, h.globals, fun he => h.names (List.cons_ne_nil _ _) he⟩

/-- The number of frames, and the names in those other than the innermost one. -/
theorem stack (h : Kept f g) : g.stack.length = f.stack.length ∧
    (f.HasErrorVars → g.stack.tail.map Frame.names = f.stack.tail.map Frame.names) := by
  obtain ⟨fg, fl⟩ := f
  obtain ⟨gg, gl⟩ := g
  have hlen : gl.length = fl.length := h.length
  refine ⟨by simp [Frames.stack, hlen], fun he => ?_⟩
  cases fl with
  | nil =>
    cases List.length_eq_zero_iff.1 hlen
    rfl
  | cons l ls =>
    cases gl with
    | nil => cases hlen
    | cons l' ls' =>
      have houter : ls'.map Frame.names = ls.map Frame.names := h.outer
      have hglobals : gg.names = fg.names := h.names (List.cons_ne_nil _ _) he
      simp [Frames.stack, houter, hglobals]

end Kept

/-- From `f` to `g` every frame stays, and no variable goes. -/
structure Widens (f g : Frames) : Prop where
  locals : ∀ (i : Nat) (l : Frame), f.locals[i]? = some l →
    ∃ l' : Frame, g.locals[i]? = some l' ∧ l.names ⊆ l'.names
  globals : f.globals.names ⊆ g.globals.names

theorem get?_isSome_iff :
    (f.get? name).isSome ↔ (∃ l ∈ f.locals, name ∈ l.names) ∨ name ∈ f.globals.names := by
  rw [get?, Option.isSome_or, Bool.or_eq_true, List.findSome?_isSome_iff, Frame.get?_isSome_iff]
  simp only [Frame.get?_isSome_iff]

namespace Widens

theorem of_locals (hlocals : g.locals = f.locals) (hglobals : f.globals.names ⊆ g.globals.names) : Widens f g :=
  ⟨fun _ l hl => ⟨l, hlocals ▸ hl, fun _ => id⟩, hglobals⟩

theorem refl (f : Frames) : Widens f f :=
  .of_locals rfl fun _ => id

theorem trans (h : Widens f g) (h' : Widens g k) : Widens f k := by
  refine ⟨fun i l hl => ?_, List.Subset.trans h.globals h'.globals⟩
  obtain ⟨l', hl', hsub⟩ := h.locals i l hl
  obtain ⟨l'', hl'', hsub'⟩ := h'.locals i l' hl'
  exact ⟨l'', hl'', List.Subset.trans hsub hsub'⟩

/-- A variable that is found stays to be found. -/
theorem get? (h : Widens f g) (hname : (f.get? name).isSome) : (g.get? name).isSome := by
  rw [get?_isSome_iff] at hname ⊢
  rcases hname with ⟨l, hl, hname⟩ | hname
  · obtain ⟨i, hi⟩ := List.mem_iff_getElem?.1 hl
    obtain ⟨l', hl', hsub⟩ := h.locals i l hi
    exact .inl ⟨l', List.mem_of_getElem? hl', hsub hname⟩
  · exact .inr (h.globals hname)

theorem insert (f : Frames) (name : String) (v : Value) : Widens f (f.insert name v) := by
  obtain ⟨globals, locals⟩ := f
  cases locals with
  | nil => exact .of_locals rfl (Frame.names_subset_insert _)
  | cons l ls =>
    refine ⟨fun i k hk => ?_, fun _ => id⟩
    cases i with
    | zero =>
      cases hk
      exact ⟨_, rfl, Frame.names_subset_insert _⟩
    | succ i => exact ⟨k, hk, fun _ => id⟩

theorem insertGlobal (f : Frames) (name : String) (v : Value) : Widens f (f.insertGlobal name v) :=
  .of_locals rfl (Frame.names_subset_insert _)

theorem assign? (h : f.assign? name v = some g) : Widens f g := by
  unfold Frames.assign? at h
  split at h
  · next locals hlocals =>
    cases h
    refine ⟨fun i l hl => ?_, fun _ => id⟩
    have hnames : (locals.map Frame.names)[i]? = some l.names := by
      rw [Kept.assignIn hlocals, List.getElem?_map, hl]
      rfl
    rw [List.getElem?_map] at hnames
    obtain ⟨l', hl', hsame⟩ := Option.map_eq_some_iff.1 hnames
    exact ⟨l', hl', hsame ▸ fun _ => id⟩
  · split at h
    · cases h
      refine .of_locals rfl ?_
      show f.globals.names ⊆ (f.globals.replace name v).names
      rw [Frame.names_replace]
      exact fun _ => id
    · cases h

theorem unnest (h : Widens f.nest g) : Widens f g.unnest := by
  refine ⟨fun i l hl => ?_, h.globals⟩
  obtain ⟨l', hl', hsub⟩ := h.locals (i + 1) l hl
  refine ⟨l', ?_, hsub⟩
  show g.locals.tail[i]? = some l'
  rw [List.getElem?_tail]
  exact hl'

theorem leaveBody (h : Widens f.enterBody g) : Widens f (g.leaveBody f.locals) :=
  .of_locals rfl h.globals

end Widens

theorem assignIn_isSome {ls : List Frame} (h : (ls.findSome? (·.get? name)).isSome) :
    (assignIn name v ls).isSome := by
  induction ls with
  | nil => cases h
  | cons l ls ih =>
    unfold assignIn
    split
    · rfl
    · next hl =>
      rw [List.findSome?_cons, Option.not_isSome_iff_eq_none.1 hl] at h
      rw [Option.isSome_map]
      exact ih h

/-- What cannot be assigned to is not found. -/
theorem get?_eq_none_of_assign? (h : f.assign? name v = none) : f.get? name = none := by
  unfold assign? at h
  split at h
  · cases h
  · next hlocals =>
    split at h
    · cases h
    · next hglobals =>
      rw [get?, Option.or_eq_none_iff]
      refine ⟨Option.not_isSome_iff_eq_none.1 fun hsome => ?_, Option.not_isSome_iff_eq_none.1 hglobals⟩
      have hassigned := assignIn_isSome (v := v) hsome
      rw [hlocals] at hassigned
      cases hassigned

end Frames

/-! ### Evaluations -/

namespace Eval

/-- An evaluation takes the frames to related ones, however it ends. -/
def Relates (R : Frames → Frames → Prop) (α : Type) (m : Eval α) : Prop :=
  ∀ σ, R σ.frames (m.run.run σ).2.frames

namespace Relates

variable {R : Frames → Frames → Prop} {α β : Type} {m : Eval α}

/-- A step that leaves the frames alone. -/
theorem still (hR : ∀ f, R f f) (hm : ∀ σ, (m.run.run σ).2.frames = σ.frames) : Relates R α m := by
  intro σ
  rw [hm]
  exact hR _

theorem bind {f : α → Eval β} (hR : ∀ {f g k}, R f g → R g k → R f k) (hm : Relates R α m)
    (hf : ∀ a, Relates R β (f a)) : Relates R β (m >>= f) := by
  intro σ
  have hm := hm σ
  rw [run_bind]
  rcases hr : m.run.run σ with ⟨e | a, σ'⟩ <;> rw [hr] at hm
  · exact hm
  · exact hR hm (hf a σ')

theorem located {token : Token} (hm : Relates R α m) : Relates R α (Eval.located token m) := by
  intro σ
  have hm := hm σ
  rw [run_located]
  rcases hr : m.run.run σ with ⟨(f | _) | a, σ'⟩ <;> rw [hr] at hm <;> exact hm

theorem modifyFrames {f : Frames → Frames} (hf : ∀ fs, R fs (f fs)) :
    Relates R Unit (Eval.modifyFrames f) :=
  fun σ => hf σ.frames

end Relates

/-- The steps of expressions leave all frames but the globals alone. -/
theorem untouched_compositional : Compositional (Relates Frames.Untouched) where
  pure _ := .still .refl fun _ => rfl
  bind := .bind .trans
  fail _ _ := .still .refl fun _ => rfl
  outOfFuel := .still .refl fun _ => rfl
  located := .located
  store := .still .refl fun _ => rfl
  replaceElem _ _ _ := .still .refl fun _ => rfl
  modifyMap _ _ := .still .refl fun _ => rfl
  newArray _ _ := .still .refl fun _ => rfl
  newMap _ _ := .still .refl fun _ => rfl
  lookup name := .still .refl fun σ => by rw [run_lookup]; split <;> rfl
  unknownFunction _ := .still .refl fun _ => rfl
  noteError _ := .modifyFrames fun _ =>
    (Frames.Untouched.insertGlobal fun he => he.1).trans (.insertGlobal fun he => he.2)
  ask _ := .still .refl fun _ => rfl
  readLine := .still .refl fun _ => rfl
  randomly _ := .still .refl fun _ => rfl

/-- The steps of statements declare in the innermost frame only. -/
theorem kept_compositional :
    StmtCompositional (Relates Frames.Untouched) (Relates Frames.Kept) where
  expr := untouched_compositional
  weaken hm σ := (hm σ).kept
  bind := .bind .trans
  located := .located
  tick := .still .refl fun σ => by rw [run_tick]; split <;> rfl
  declare name v := .modifyFrames fun f => .insert f name v
  assign name v σ := by
    rw [run_assign]
    split
    · next hassign => exact .assign? hassign
    · exact .refl _
  nested hm σ := (hm { σ with frames := σ.frames.nest }).unnest
  inBody hm σ := (hm { σ with frames := σ.frames.enterBody }).leaveBody

end Eval

/-! ### Interpreters -/

namespace Interpreter

/-- What an interpreter becomes that starts with the globals of the prelude, runs sources and handles
events, in any world and whatever comes of it. -/
inductive History : Interpreter → Prop where
  | start (s : Store Value) : History (withGlobals Prelude.standard.globals s).1
  | run {i : Interpreter} (h : History i) (w : World) (source : String) (fuel : Nat) :
    History (i.run w source fuel).2.1
  | handle {i : Interpreter} (h : History i) (w : World) (event : String) (params : List Value)
    (fuel : Nat) : History (i.handle w event params fuel).2.1

theorem relates_eval {R : Frames → Frames → Prop} {m : Eval Unit} (hm : Eval.Relates R Unit m)
    (i : Interpreter) (w : World) : R i.frames (i.eval w m).2.1.frames :=
  hm ⟨w, i.frames⟩

theorem untouched_handle (i : Interpreter) (w : World) (event : String) (params : List Value)
    (fuel : Nat) : Frames.Untouched i.frames (i.handle w event params fuel).2.1.frames := by
  obtain ⟨m, hm, hrun⟩ := Eval.kept_compositional.handle i w event params fuel
  rw [hrun]
  exact relates_eval hm i w

theorem kept_run (i : Interpreter) (w : World) (source : String) (fuel : Nat) :
    Frames.Kept i.frames (i.run w source fuel).2.1.frames := by
  unfold run
  split
  · exact .refl _
  · next p _ => exact Eval.kept_compositional.program p fuel ⟨w, i.frames⟩

/-- Between runs and events there are the globals only, with the variables for errors. -/
theorem History.frames {i : Interpreter} (h : History i) :
    i.frames.locals = [] ∧ i.frames.HasErrorVars := by
  induction h with
  | start s => exact ⟨rfl, .tail _ (.head _), .head _⟩
  | @run i _ w source fuel ih =>
    have hkept := kept_run i w source fuel
    exact ⟨hkept.locals_eq_nil ih.1, ih.2.mono hkept.globals⟩
  | @handle i _ w event params fuel ih =>
    have huntouched := untouched_handle i w event params fuel
    exact ⟨huntouched.locals.trans ih.1, ih.2.mono huntouched.globals⟩

/-- Scope frames survive every evaluation. However an expression ends, the frames above the globals are
as they were. However a statement ends, there are as many frames as before, and the names in those other
than the innermost one are the same. Between runs and events the globals are the only frame. -/
theorem frames_survive :
    (∀ (funcs : List Function) (depth : Nat) (e : Expr) (σ : Machine),
      ((e.eval (invoke funcs depth)).run.run σ).2.frames.locals = σ.frames.locals) ∧
    (∀ (funcs : List Function) (depth fuel : Nat) (s : Stmt) (σ : Machine),
      let after := ((s.run (invoke funcs depth) fuel).run.run σ).2.frames
      after.stack.length = σ.frames.stack.length ∧
        (σ.frames.HasErrorVars →
          after.stack.tail.map Frame.names = σ.frames.stack.tail.map Frame.names)) ∧
    (∀ i : Interpreter, History i →
      i.frames.stack = [i.frames.globals] ∧ i.frames.HasErrorVars) := by
  have hkept := Eval.kept_compositional
  refine ⟨fun funcs depth e σ => ?_, fun funcs depth fuel s σ => ?_, fun i hi => ?_⟩
  · exact (hkept.expr.eval (hkept.invoke funcs depth) e σ).locals
  · exact (hkept.run fuel (hkept.invoke funcs depth) s σ).stack
  · obtain ⟨hlocals, herrors⟩ := hi.frames
    exact ⟨by rw [Frames.stack, hlocals]; rfl, herrors⟩

/-- A program that panics in a loop of a function that a block calls. -/
def panickingSource : String :=
  "func f\n    while true\n        x := \"deep\"\n        panic x\n    end\nend\nif true\n    f\nend\n"

/-- Whether a run ended in a panic that the program raised with this text. -/
def panicked (text : String) : Except Interrupt Unit → Bool
  | .error (.failed ⟨.userPanic found, _⟩) => found == text
  | _ => false

theorem eq_of_panicked {text : String} {outcome : Except Interrupt Unit} (h : panicked text outcome) :
    ∃ place, outcome = .error (.failed ⟨.userPanic text, place⟩) := by
  unfold panicked at h
  split at h
  · next found place =>
    cases beq_iff_eq.1 h
    exact ⟨place, rfl⟩
  · cases h

/-- After the panic the globals are left, and a declaration in blocks stays in the innermost one. -/
theorem frames_survive_panic : ∃ place i w,
    (withGlobals Prelude.standard.globals {}).1.run {} panickingSource 3 =
      (.error (.failed ⟨.userPanic "deep", place⟩), i, w) ∧
    i.frames.stack = [i.frames.globals] ∧
    ∀ (var : Var) (text : String), let σ : Machine := ⟨w, i.frames.nest.nest⟩
      σ.frames.HasErrorVars ∧ ((((Stmt.inferredDecl default none var (.str default text)).run
        (invoke [] 0) 0).run.run σ).2.frames.stack.tail.map Frame.names =
          σ.frames.stack.tail.map Frame.names) := by
  have hout : panicked "deep" ((withGlobals Prelude.standard.globals {}).1.run {} panickingSource 3).1 := by
    decide +kernel
  have hhistory : History ((withGlobals Prelude.standard.globals {}).1.run {} panickingSource 3).2.1 :=
    .run (.start {}) {} panickingSource 3
  generalize (withGlobals Prelude.standard.globals {}).1.run {} panickingSource 3 = r at hout hhistory
  obtain ⟨outcome, i, w⟩ := r
  obtain ⟨hstack, herrors⟩ := frames_survive.2.2 i hhistory
  obtain ⟨place, rfl⟩ := eq_of_panicked hout
  exact ⟨place, i, w, rfl, hstack, fun var text => ⟨herrors, (frames_survive.2.1 [] 0 0 _ _).2 herrors⟩⟩

end Interpreter

end TinyScript
