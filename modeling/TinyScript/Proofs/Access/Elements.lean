import TinyScript.Eval.Operator
import TinyScript.Proofs.Access.Places
import TinyScript.Proofs.Bytecode.Loops
import TinyScript.Proofs.Eval.Runs
import TinyScript.Proofs.Store

/-!
# Elements and parts are what the places say

`Index.pick`, `Index.put` and `Index.cut` read, write and slice an array at the places that numbers denote,
and have no default for a place out of range, as each place comes with a proof that there is none. The
evaluator and the stack machine do what they do (`accesses_exact`), so neither goes out of range or makes up
an element, and what does not denote a place changes nothing. The parts of an array or a text before and
after a place are the whole.
-/

namespace TinyScript

open Bytecode (Vm Cell Exec Opcode)

/-! ### Without defaults -/

namespace Index
variable {α : Type} {xs : Array α} {x : Float} {a b k len : Nat} {start stop : Option Float} {p : Panic}

/-- The element at the place that a number denotes. -/
def pick (xs : Array α) (x : Float) : Except Panic α :=
  match h : resolve x xs.size false with
  | .ok k =>
    have := lt_of_resolve h
    .ok xs[k]
  | .error p => .error p

/-- The array with another element at the place that a number denotes. -/
def put (xs : Array α) (x : Float) (v : α) : Except Panic (Array α) :=
  match h : resolve x xs.size false with
  | .ok k => .ok (xs.set k v (lt_of_resolve h))
  | .error p => .error p

/-- The elements from one bound on and before the other. -/
def cut (xs : Array α) (start stop : Option Float) : Except Panic (Array α) :=
  match h : slice start stop xs.size with
  | .ok (a, b) =>
    have := slice_le h
    .ok (Array.ofFn fun j : Fin (b - a) => xs[a + j])
  | .error p => .error p

theorem pick_of_ok (xs : Array α) (h : resolve x xs.size false = .ok k) :
    ∃ hk : k < xs.size, pick xs x = .ok xs[k] := by
  refine ⟨lt_of_resolve h, ?_⟩
  unfold pick
  split
  · next k' h' =>
    obtain rfl : k' = k := Except.ok.inj (h'.symm.trans h)
    rfl
  · next h' => cases h'.symm.trans h

theorem pick_of_error (xs : Array α) (h : resolve x xs.size false = .error p) : pick xs x = .error p := by
  unfold pick
  split
  · next h' => cases h'.symm.trans h
  · next h' => rw [Except.error.inj (h'.symm.trans h)]

theorem put_of_ok {v : α} (h : resolve x xs.size false = .ok k) : put xs x v = .ok (xs.setIfInBounds k v) := by
  have hset := (Array.setIfInBounds_def xs k v).trans (dif_pos (lt_of_resolve h))
  unfold put
  split
  · next k' h' =>
    obtain rfl : k' = k := Except.ok.inj (h'.symm.trans h)
    exact congrArg _ hset.symm
  · next h' => cases h'.symm.trans h

theorem put_of_error {v : α} (h : resolve x xs.size false = .error p) : put xs x v = .error p := by
  unfold put
  split
  · next h' => cases h'.symm.trans h
  · next h' => rw [Except.error.inj (h'.symm.trans h)]

theorem cut_of_ok (xs : Array α) (h : slice start stop xs.size = .ok (a, b)) :
    cut xs start stop = .ok (xs.extract a b) := by
  obtain ⟨hab, hb⟩ := slice_le h
  unfold cut
  split
  · next a' b' h' =>
    obtain ⟨rfl, rfl⟩ : a' = a ∧ b' = b := Prod.mk.inj (Except.ok.inj (h'.symm.trans h))
    refine congrArg _ (Array.ext ?_ fun j hj hj' => ?_)
    · rw [Array.size_ofFn, Array.size_extract, Nat.min_eq_left hb]
    · rw [Array.getElem_ofFn, Array.getElem_extract]
  · next h' => cases h'.symm.trans h

theorem cut_of_error (xs : Array α) (h : slice start stop xs.size = .error p) :
    cut xs start stop = .error p := by
  unfold cut
  split
  · next h' => cases h'.symm.trans h
  · next h' => rw [Except.error.inj (h'.symm.trans h)]

/-! ### Characters -/

theorem charAt_eq_pick (t : String) : charAt t x = (pick t.toList.toArray x).map String.singleton := by
  cases h : resolve x t.toList.length false with
  | error p =>
    rw [pick_of_error t.toList.toArray h]
    simp only [charAt, Bind.bind, Except.bind, h]
    rfl
  | ok k =>
    obtain ⟨hk, hpick⟩ := pick_of_ok t.toList.toArray h
    have hdrop : t.toList.drop k = t.toList[k] :: t.toList.drop (k + 1) := List.drop_eq_getElem_cons hk
    rw [hpick]
    simp only [charAt, Bind.bind, Except.bind, h, hdrop]
    rfl

theorem sliceText_eq_cut (t : String) :
    sliceText t start stop = (cut t.toList.toArray start stop).map fun cs => String.ofList cs.toList := by
  cases h : slice start stop t.toList.length with
  | error p =>
    rw [cut_of_error t.toList.toArray h]
    simp only [sliceText, Bind.bind, Except.bind, h]
    rfl
  | ok ab =>
    obtain ⟨a, b⟩ := ab
    rw [cut_of_ok t.toList.toArray h]
    simp only [sliceText, Bind.bind, Except.bind, h, Except.map, Array.toList_extract, List.extract_eq_take_drop]
    rfl

/-! ### Two parts -/

theorem slice_front (h : resolve x len true = .ok k) : slice none (some x) len = .ok (0, k) := by
  show (resolve x len true >>= fun b => if b < 0 then _ else Except.ok (0, b)) = _
  rw [h]
  rfl

theorem slice_back (h : resolve x len true = .ok k) : slice (some x) none len = .ok (k, len) := by
  have hle : ¬ len < k := Nat.not_lt.2 (resolve_le h).1
  show (resolve x len true >>= fun a => if len < a then _ else Except.ok (a, len)) = _
  rw [h]
  exact if_neg hle

theorem extract_append (h : k ≤ xs.size) : xs.extract 0 k ++ xs.extract k xs.size = xs := by
  rw [Array.extract_append_extract, Nat.zero_min, Nat.max_eq_right h, Array.extract_size]

theorem ofList_extract_append (t : String) (h : k ≤ t.toList.length) :
    String.ofList (t.toList.toArray.extract 0 k).toList ++
      String.ofList (t.toList.toArray.extract k t.toList.toArray.size).toList = t := by
  have hk : k ≤ t.toList.toArray.size := h
  rw [← String.ofList_append, ← Array.toList_append, extract_append hk]
  exact String.ofList_toList

end Index

namespace Store
variable {α : Type} {s : Store α} {ref r a b : Nat} {x : Float} {start stop : Option Float}

theorem elemAt_eq_pick : s.elemAt ref x = Index.pick (s.array ref) x := by
  cases h : Index.resolve x (s.array ref).size false with
  | error p =>
    rw [Index.pick_of_error (s.array ref) h]
    simp only [elemAt, placeOf, Bind.bind, Except.bind, h]
  | ok k =>
    obtain ⟨hk, hpick⟩ := Index.pick_of_ok (s.array ref) h
    rw [hpick]
    simp only [elemAt, placeOf, Bind.bind, Except.bind, h, Array.getElem?_eq_getElem hk]

theorem sliceOf_eq_cut : s.sliceOf ref start stop = Index.cut (s.array ref) start stop := by
  cases h : Index.slice start stop (s.array ref).size with
  | error p =>
    rw [Index.cut_of_error (s.array ref) h]
    simp only [sliceOf, Bind.bind, Except.bind, h]
  | ok ab =>
    rw [Index.cut_of_ok (s.array ref) h]
    simp only [sliceOf, Bind.bind, Except.bind, h]
    rfl

/-- A part of an array that is stored does not take its place, not even if the array has no storage. -/
theorem array_newArray_extract : (s.newArray ((s.array ref).extract a b)).2.array ref = s.array ref := by
  rw [array_newArray]
  split
  · next h =>
    have hnone : s.array ref = #[] := by rw [array, h, Array.getElem?_eq_none (Nat.le_refl _)]; rfl
    rw [hnone, Array.extract_empty]
  · rfl

/-- Storage with both parts of an array has the whole array, and the two parts of it. -/
theorem array_append_parts {s₁ s₂ : Store α} (hb : b ≤ (s.array ref).size)
    (hs₁ : s₁ = (s.newArray ((s.array ref).extract 0 b)).2)
    (hs₂ : s₂ = (s₁.newArray ((s.array ref).extract b (s.array ref).size)).2) :
    s₁.array ref = s.array ref ∧ s₂.array s.arrays.size ++ s₂.array s₁.arrays.size = s.array ref := by
  have hsize : s₁.arrays.size = s.arrays.size + 1 := by
    rw [hs₁]
    exact Array.size_push _
  have hfront : s₂.array s.arrays.size = (s.array ref).extract 0 b := by
    rw [hs₂, array_newArray, if_neg (by omega), hs₁, array_newArray, if_pos rfl]
  have hback : s₂.array s₁.arrays.size = (s.array ref).extract b (s.array ref).size := by
    rw [hs₂, array_newArray, if_pos rfl]
  refine ⟨?_, ?_⟩
  · rw [hs₁]
    exact array_newArray_extract
  · rw [hfront, hback, Index.extract_append hb]

end Store

/-! ### The evaluator -/

/-- The machine with other storage. -/
def Machine.withStore (σ : Machine) (store : Store Value) : Machine :=
  { σ with world := { σ.world with store } }

namespace Eval
variable {α : Type}

/-- How an evaluation ends that takes over the result of an operation on values. -/
def outcome (r : Except Panic α) : Except Interrupt α :=
  r.mapError fun p => .failed ⟨.panic p, none⟩

theorem run_orPanic (r : Except Panic α) (σ : Machine) : (orPanic r).run.run σ = (outcome r, σ) := by
  cases r <;> rfl

theorem run_newArray (elems : Array Value) (ty : Ty) (σ : Machine) : (newArray elems ty).run.run σ =
    (.ok (.array σ.world.store.arrays.size ty), σ.withStore (σ.world.store.newArray elems).2) := rfl

end Eval

namespace Value
variable {ref k : Nat} {ty : Ty} {x : Float} {v : Value} {start stop : Option Float} {t : String} {σ : Machine}

theorem run_at_array : ((Value.array ref ty).at (.num x)).run.run σ =
    (Eval.outcome (Index.pick (σ.world.store.array ref) x), σ) := by
  rw [← Store.elemAt_eq_pick]
  exact Eval.run_orPanic _ σ

theorem run_at_str : ((Value.str t).at (.num x)).run.run σ =
    (Eval.outcome ((Index.pick t.toList.toArray x).map fun ch => .str (.singleton ch)), σ) := by
  have hchar : (Index.charAt t x).map Value.str =
      (Index.pick t.toList.toArray x).map fun ch => .str (.singleton ch) := by
    rw [Index.charAt_eq_pick]
    cases Index.pick t.toList.toArray x <;> rfl
  rw [← hchar]
  exact Eval.run_orPanic _ σ

theorem run_slice_array : ((Value.array ref ty).slice start stop).run.run σ =
    match Index.cut (σ.world.store.array ref) start stop with
    | .ok ys => (Eval.newArray ys ty).run.run σ
    | .error p => (Eval.outcome (.error p), σ) := by
  rw [← Store.sliceOf_eq_cut]
  show (Eval.orPanic (σ.world.store.sliceOf ref start stop) >>= fun ys => Eval.newArray ys ty).run.run σ = _
  rw [Eval.run_bind, Eval.run_orPanic]
  cases σ.world.store.sliceOf ref start stop <;> rfl

theorem run_slice_str : ((Value.str t).slice start stop).run.run σ =
    (Eval.outcome ((Index.cut t.toList.toArray start stop).map fun cs => .str (.ofList cs.toList)), σ) := by
  have hpart : (Index.sliceText t start stop).map Value.str =
      (Index.cut t.toList.toArray start stop).map fun cs => .str (.ofList cs.toList) := by
    rw [Index.sliceText_eq_cut]
    cases Index.cut t.toList.toArray start stop <;> rfl
  rw [← hpart]
  exact Eval.run_orPanic _ σ

theorem run_setElem : (Eval.setElem ref x v).run.run σ =
    match Index.put (σ.world.store.array ref) x v with
    | .ok ys => (.ok (), σ.withStore (σ.world.store.setArray ref ys))
    | .error p => (Eval.outcome (.error p), σ) := by
  show (Eval.orPanic (σ.world.store.placeOf ref x) >>= fun i =>
    Eval.modifyStore (·.setElem ref i v)).run.run σ = _
  rw [Eval.run_bind, Eval.run_orPanic]
  unfold Store.placeOf
  cases h : Index.resolve x (σ.world.store.array ref).size false with
  | error p => rw [Index.put_of_error h]; rfl
  | ok i =>
    have hset : σ.world.store.setElem ref i v = _ :=
      Store.setElem_eq (Store.lt_of_lt_array (Index.lt_of_resolve h))
    rw [Index.put_of_ok h]
    show (Except.ok (), σ.withStore (σ.world.store.setElem ref i v)) = _
    rw [hset]
    rfl

/-- The parts of a value before and after a place, put together. -/
def rejoined (v : Value) (x : Float) : Eval Value := do
  let front ← v.slice .none (some x)
  let back ← v.slice (some x) .none
  BinaryOp.add.eval front back

theorem rejoined_array (h : Index.resolve x (σ.world.store.array ref).size true = .ok k) :
    ∃ r τ, ((Value.array ref ty).rejoined x).run.run σ = (.ok (.array r ty), τ) ∧
      τ.world.store.array r = σ.world.store.array ref := by
  obtain ⟨xs, hxs⟩ : ∃ xs, xs = σ.world.store.array ref := ⟨_, rfl⟩
  obtain ⟨s₁, hs₁⟩ : ∃ s, s = (σ.world.store.newArray (xs.extract 0 k)).2 := ⟨_, rfl⟩
  obtain ⟨s₂, hs₂⟩ : ∃ s, s = (s₁.newArray (xs.extract k xs.size)).2 := ⟨_, rfl⟩
  rw [← hxs] at h
  have hfront := Index.cut_of_ok xs (Index.slice_front h)
  have hback := Index.cut_of_ok xs (Index.slice_back h)
  obtain ⟨hsame, hwhole⟩ := Store.array_append_parts (hxs ▸ (Index.resolve_le h).1) (hxs ▸ hs₁) (hxs ▸ hs₂)
  rw [← hxs] at hsame hwhole
  have hrun₁ : ((Value.array ref ty).slice .none (some x)).run.run σ =
      (.ok (.array σ.world.store.arrays.size ty), σ.withStore s₁) := by
    rw [run_slice_array, ← hxs, hfront, hs₁]
    rfl
  have hrun₂ : ((Value.array ref ty).slice (some x) .none).run.run (σ.withStore s₁) =
      (.ok (.array s₁.arrays.size ty), σ.withStore s₂) := by
    have hstore : (σ.withStore s₁).world.store.array ref = xs := hsame
    rw [run_slice_array, hstore, hback, hs₂]
    rfl
  refine ⟨s₂.arrays.size, σ.withStore (s₂.newArray xs).2, ?_, ?_⟩
  · rw [rejoined, Eval.run_bind, hrun₁]
    dsimp only
    rw [Eval.run_bind, hrun₂]
    show (Eval.newArray (s₂.array σ.world.store.arrays.size ++ s₂.array s₁.arrays.size)
      (if ty.isEmpty then ty else ty)).run.run (σ.withStore s₂) = _
    rw [hwhole, ite_self]
    rfl
  · show (s₂.newArray xs).2.array s₂.arrays.size = σ.world.store.array ref
    rw [Store.array_newArray, if_pos rfl, hxs]

theorem rejoined_str (h : Index.resolve x t.toList.length true = .ok k) :
    ((Value.str t).rejoined x).run.run σ = (.ok (.str t), σ) := by
  have hfront := Index.cut_of_ok t.toList.toArray (Index.slice_front h)
  have hback := Index.cut_of_ok t.toList.toArray (Index.slice_back h)
  have htext := Index.ofList_extract_append t (Index.resolve_le h).1
  rw [rejoined, Eval.run_bind, run_slice_str, hfront]
  dsimp only [Except.map, Eval.outcome, Except.mapError]
  rw [Eval.run_bind, run_slice_str, hback]
  show (Except.ok (Value.str (_ ++ _)), σ) = _
  rw [htext]

end Value

/-! ### The stack machine -/

namespace Bytecode.Vm

/-- The machine with other storage. -/
def withStore (vm : Vm) (store : Store Cell) : Vm :=
  { vm with store }

/-- The machine with one more value on its stack. -/
def pushed (vm : Vm) (v : Cell) : Vm :=
  { vm with stack := vm.stack.setIfInBounds vm.sp v, sp := vm.sp + 1 }

/-- The machine with a new array in storage and on its stack. -/
def pushedArray (vm : Vm) (elems : Array Cell) : Vm :=
  (vm.withStore (vm.store.newArray elems).2).pushed (.array vm.store.arrays.size)

theorem size_stack_pushed (vm : Vm) (v : Cell) : (vm.pushed v).stack.size = vm.stack.size :=
  Array.size_setIfInBounds

theorem stack_pushed {vm : Vm} (v : Cell) (h : vm.sp < vm.stack.size) : (vm.pushed v).stack[vm.sp]? = some v :=
  Array.getElem?_setIfInBounds_self_of_lt h

theorem stack_pushed_below {vm : Vm} (v : Cell) {n : Nat} (h : n < vm.sp) :
    (vm.pushed v).stack[n]? = vm.stack[n]? :=
  Array.getElem?_setIfInBounds_ne (Nat.ne_of_gt h)

end Bytecode.Vm

namespace Bytecode.Exec
variable {α : Type} {ref k : Nat} {x : Float} {v : Cell} {start stop : Option Float} {t : String}
  {vm : Vm}

theorem run_orPanic (r : Except Panic α) (vm : Vm) : (orPanic r).run.run vm = (r.mapError .panic, vm) := by
  cases r <;> rfl

theorem run_valueAt_array : (valueAt (.array ref) (.num x)).run.run vm =
    ((Index.pick (vm.store.array ref) x).mapError .panic, vm) := by
  rw [← Store.elemAt_eq_pick]
  exact run_orPanic _ vm

theorem run_valueAt_str : (valueAt (.str t) (.num x)).run.run vm =
    (((Index.pick t.toList.toArray x).map fun ch => Cell.str (.singleton ch)).mapError .panic, vm) := by
  have hchar : (Index.charAt t x).map Cell.str =
      (Index.pick t.toList.toArray x).map fun ch => .str (.singleton ch) := by
    rw [Index.charAt_eq_pick]
    cases Index.pick t.toList.toArray x <;> rfl
  rw [← hchar]
  exact run_orPanic _ vm

theorem run_setAt : (setAt (.array ref) (.num x) v).run.run vm =
    match Index.put (vm.store.array ref) x v with
    | .ok ys => (.ok (), vm.withStore (vm.store.setArray ref ys))
    | .error p => (.error (.panic p), vm) := by
  show (orPanic (vm.store.placeOf ref x) >>= fun i =>
    modify fun vm => { vm with store := vm.store.setElem ref i v }).run.run vm = _
  rw [run_bind, run_orPanic]
  unfold Store.placeOf
  cases h : Index.resolve x (vm.store.array ref).size false with
  | error p => rw [Index.put_of_error h]; rfl
  | ok i =>
    have hset : vm.store.setElem ref i v = _ :=
      Store.setElem_eq (Store.lt_of_lt_array (Index.lt_of_resolve h))
    rw [Index.put_of_ok h]
    show (Except.ok (), { vm with store := vm.store.setElem ref i v }) = _
    rw [hset]
    rfl

theorem run_pushSlice_array : (pushSlice (.array ref) start stop).run.run vm =
    match Index.cut (vm.store.array ref) start stop with
    | .ok ys => (pushArray ys).run.run vm
    | .error p => (.error (.panic p), vm) := by
  rw [← Store.sliceOf_eq_cut]
  show (orPanic (vm.store.sliceOf ref start stop) >>= fun ys => pushArray ys).run.run vm = _
  rw [run_bind, run_orPanic]
  cases vm.store.sliceOf ref start stop <;> rfl

theorem run_pushSlice_str : (pushSlice (.str t) start stop).run.run vm =
    match Index.cut t.toList.toArray start stop with
    | .ok cs => (push (.str (.ofList cs.toList))).run.run vm
    | .error p => (.error (.panic p), vm) := by
  show (orPanic (Index.sliceText t start stop) >>= fun u => push (.str u)).run.run vm = _
  rw [run_bind, run_orPanic, Index.sliceText_eq_cut]
  cases Index.cut t.toList.toArray start stop <;> rfl

/-! #### A stack with room -/

theorem run_push_of_lt (h : vm.sp < vm.stack.size) : (push v).run.run vm = (.ok (), vm.pushed v) := by
  have hget : (MonadState.get : Exec Vm).run.run vm = (.ok vm, vm) := rfl
  rw [push, run_bind, hget]
  dsimp only
  rw [if_pos h]
  rfl

theorem run_pushArray (elems : Array Cell) (h : vm.sp < vm.stack.size) :
    (pushArray elems).run.run vm = (.ok (), vm.pushedArray elems) := by
  show (push (.array vm.store.arrays.size)).run.run (vm.withStore (vm.store.newArray elems).2) = _
  exact run_push_of_lt h

theorem run_pop {n : Nat} (hsp : vm.sp = n + 1) (h : vm.stack[n]? = some v) :
    pop.run.run vm = (.ok v, { vm with sp := n }) := by
  have hget : (MonadState.get : Exec Vm).run.run { vm with sp := n } = (.ok { vm with sp := n }, { vm with sp := n }) :=
    rfl
  have hdrop : (drop 1).run.run vm = (.ok (), { vm with sp := n }) := by
    rw [Vm.run_drop_one vm (by omega), hsp]
    rfl
  rw [pop, run_bind, hdrop]
  dsimp only
  rw [run_bind, hget]
  show (Except.ok (vm.stack.getD n .none), { vm with sp := n }) = _
  rw [Array.getD_eq_getD_getElem?, h]
  rfl

theorem run_arrayConcatenate {n a b : Nat} (hsp : vm.sp = n + 2) (hleft : vm.stack[n]? = some (.array a))
    (hright : vm.stack[n + 1]? = some (.array b)) : (perform .arrayConcatenate 0 0).run.run vm =
      (pushArray (vm.store.array a ++ vm.store.array b)).run.run { vm with sp := n } := by
  have hpop : pop.run.run { vm with sp := n + 1 } = (.ok (.array a), { vm with sp := n }) := run_pop rfl hleft
  rw [perform, run_bind, run_pop hsp hright]
  dsimp only
  rw [run_bind, hpop]
  rfl

theorem run_stringConcatenate {n : Nat} {a b : String} (hsp : vm.sp = n + 2)
    (hleft : vm.stack[n]? = some (.str a)) (hright : vm.stack[n + 1]? = some (.str b)) :
    (perform .stringConcatenate 0 0).run.run vm = (push (.str (a ++ b))).run.run { vm with sp := n } := by
  have hpop : popText.run.run vm = (.ok b, { vm with sp := n + 1 }) := by
    rw [popText, run_bind, run_pop hsp hright]
    rfl
  have hleft' : pop.run.run { vm with sp := n + 1 } = (.ok (.str a), { vm with sp := n }) := run_pop rfl hleft
  have hpop' : popText.run.run { vm with sp := n + 1 } = (.ok a, { vm with sp := n }) := by
    rw [popText, run_bind, hleft']
    rfl
  rw [perform, onTexts, run_bind, hpop]
  dsimp only
  rw [run_bind, hpop']

/-- The parts of a value before and after a place, put together by an instruction. -/
def rejoined (v : Cell) (x : Float) (op : Opcode) : Exec Unit := do
  pushSlice v none (some x)
  pushSlice v (some x) none
  perform op 0 0

theorem run_rejoined {vm₁ vm₂ : Vm} {op : Opcode} (h₁ : (pushSlice v none (some x)).run.run vm = (.ok (), vm₁))
    (h₂ : (pushSlice v (some x) none).run.run vm₁ = (.ok (), vm₂)) :
    (rejoined v x op).run.run vm = (perform op 0 0).run.run vm₂ := by
  rw [rejoined, run_bind, h₁]
  dsimp only
  rw [run_bind, h₂]

theorem rejoined_array (hroom : vm.sp + 2 ≤ vm.stack.size)
    (h : Index.resolve x (vm.store.array ref).size true = .ok k) :
    ∃ r τ, (rejoined (.array ref) x .arrayConcatenate).run.run vm = (.ok (), τ) ∧
      τ.sp = vm.sp + 1 ∧ τ.stack[vm.sp]? = some (.array r) ∧ τ.store.array r = vm.store.array ref := by
  obtain ⟨xs, hxs⟩ : ∃ xs, xs = vm.store.array ref := ⟨_, rfl⟩
  rw [← hxs] at h
  obtain ⟨vm₁, hvm₁⟩ : ∃ vm', vm' = vm.pushedArray (xs.extract 0 k) := ⟨_, rfl⟩
  obtain ⟨vm₂, hvm₂⟩ : ∃ vm', vm' = vm₁.pushedArray (xs.extract k xs.size) := ⟨_, rfl⟩
  have hstore₁ : vm₁.store = (vm.store.newArray (xs.extract 0 k)).2 := hvm₁ ▸ rfl
  have hstore₂ : vm₂.store = (vm₁.store.newArray (xs.extract k xs.size)).2 := hvm₂ ▸ rfl
  obtain ⟨hsame, hwhole⟩ :=
    Store.array_append_parts (hxs ▸ (Index.resolve_le h).1) (hxs ▸ hstore₁) (hxs ▸ hstore₂)
  rw [← hxs] at hsame hwhole
  have hsp₁ : vm₁.sp = vm.sp + 1 := hvm₁ ▸ rfl
  have hsp₂ : vm₂.sp = vm.sp + 2 := hvm₂ ▸ congrArg (· + 1) hsp₁
  have hroom₁ : vm₁.stack.size = vm.stack.size := hvm₁ ▸ Vm.size_stack_pushed _ _
  have hroom₂ : vm₂.stack.size = vm₁.stack.size := hvm₂ ▸ Vm.size_stack_pushed _ _
  have hrun₁ : (pushSlice (.array ref) none (some x)).run.run vm = (.ok (), vm₁) := by
    rw [run_pushSlice_array, ← hxs, Index.cut_of_ok xs (Index.slice_front h), hvm₁]
    exact run_pushArray _ (by omega)
  have hrun₂ : (pushSlice (.array ref) (some x) none).run.run vm₁ = (.ok (), vm₂) := by
    rw [run_pushSlice_array, hsame, Index.cut_of_ok xs (Index.slice_back h), hvm₂]
    exact run_pushArray _ (by omega)
  have hleft : vm₂.stack[vm.sp]? = some (.array vm.store.arrays.size) := by
    have hbelow : vm₂.stack[vm.sp]? = vm₁.stack[vm.sp]? :=
      hvm₂ ▸ Vm.stack_pushed_below _ (show vm.sp < vm₁.sp by omega)
    rw [hbelow, hvm₁]
    exact Vm.stack_pushed _ (show vm.sp < vm.stack.size by omega)
  have hright : vm₂.stack[vm.sp + 1]? = some (.array vm₁.store.arrays.size) := by
    rw [hvm₂, ← hsp₁]
    exact Vm.stack_pushed _ (show vm₁.sp < vm₁.stack.size by omega)
  refine ⟨vm₂.store.arrays.size, Vm.pushedArray { vm₂ with sp := vm.sp } xs, ?_, rfl, Vm.stack_pushed _ ?_, ?_⟩
  · rw [run_rejoined hrun₁ hrun₂, run_arrayConcatenate hsp₂ hleft hright, hwhole]
    refine run_pushArray xs ?_
    show vm.sp < vm₂.stack.size
    omega
  · show vm.sp < vm₂.stack.size
    omega
  · show (vm₂.store.newArray xs).2.array vm₂.store.arrays.size = vm.store.array ref
    rw [Store.array_newArray, if_pos rfl, hxs]

theorem rejoined_str (hroom : vm.sp + 2 ≤ vm.stack.size) (h : Index.resolve x t.toList.length true = .ok k) :
    ∃ τ, (rejoined (.str t) x .stringConcatenate).run.run vm = (.ok (), τ) ∧
      τ.sp = vm.sp + 1 ∧ τ.stack[vm.sp]? = some (.str t) := by
  obtain ⟨front, hfront⟩ : ∃ u, u = String.ofList (t.toList.toArray.extract 0 k).toList := ⟨_, rfl⟩
  obtain ⟨back, hback⟩ : ∃ u, u = String.ofList (t.toList.toArray.extract k t.toList.toArray.size).toList :=
    ⟨_, rfl⟩
  have htext : front ++ back = t := hfront ▸ hback ▸ Index.ofList_extract_append t (Index.resolve_le h).1
  have hroom₁ : (vm.pushed (.str front)).stack.size = vm.stack.size := Vm.size_stack_pushed _ _
  have hroom₂ : ((vm.pushed (.str front)).pushed (.str back)).stack.size = vm.stack.size :=
    (Vm.size_stack_pushed _ _).trans hroom₁
  have hrun₁ : (pushSlice (.str t) none (some x)).run.run vm = (.ok (), vm.pushed (.str front)) := by
    rw [run_pushSlice_str, Index.cut_of_ok t.toList.toArray (Index.slice_front h), hfront]
    exact run_push_of_lt (by omega)
  have hrun₂ : (pushSlice (.str t) (some x) none).run.run (vm.pushed (.str front)) =
      (.ok (), (vm.pushed (.str front)).pushed (.str back)) := by
    rw [run_pushSlice_str, Index.cut_of_ok t.toList.toArray (Index.slice_back h), hback]
    exact run_push_of_lt (show vm.sp + 1 < _ by omega)
  have hleft : ((vm.pushed (.str front)).pushed (.str back)).stack[vm.sp]? = some (.str front) := by
    rw [Vm.stack_pushed_below _ (show vm.sp < vm.sp + 1 by omega)]
    exact Vm.stack_pushed _ (by omega)
  have hright : ((vm.pushed (.str front)).pushed (.str back)).stack[vm.sp + 1]? = some (.str back) :=
    Vm.stack_pushed _ (show vm.sp + 1 < _ by omega)
  refine ⟨Vm.pushed { (vm.pushed (.str front)).pushed (.str back) with sp := vm.sp } (.str t), ?_, rfl,
    Vm.stack_pushed _ (show vm.sp < _ from ?_)⟩
  · rw [run_rejoined hrun₁ hrun₂, run_stringConcatenate rfl hleft hright, htext]
    refine run_push_of_lt ?_
    show vm.sp < ((vm.pushed (.str front)).pushed (.str back)).stack.size
    omega
  · show vm.sp < ((vm.pushed (.str front)).pushed (.str back)).stack.size
    omega

end Bytecode.Exec

/-! ### Both -/

/-- The evaluator reads, writes and slices at the places that numbers denote. What does not denote a place
changes nothing, and the parts before and after a place are the whole when they are added. -/
structure Machine.AccessesExact (σ : Machine) : Prop where
  at_array (ref : Nat) (ty : Ty) (x : Float) : ((Value.array ref ty).at (.num x)).run.run σ =
    (Eval.outcome (Index.pick (σ.world.store.array ref) x), σ)
  at_str (t : String) (x : Float) : ((Value.str t).at (.num x)).run.run σ =
    (Eval.outcome ((Index.pick t.toList.toArray x).map fun ch => .str (.singleton ch)), σ)
  set (ref : Nat) (x : Float) (v : Value) : (Eval.setElem ref x v).run.run σ =
    match Index.put (σ.world.store.array ref) x v with
    | .ok ys => (.ok (), σ.withStore (σ.world.store.setArray ref ys))
    | .error p => (Eval.outcome (.error p), σ)
  slice_array (ref : Nat) (ty : Ty) (start stop : Option Float) :
    ((Value.array ref ty).slice start stop).run.run σ =
      match Index.cut (σ.world.store.array ref) start stop with
      | .ok ys => (Eval.newArray ys ty).run.run σ
      | .error p => (Eval.outcome (.error p), σ)
  slice_str (t : String) (start stop : Option Float) : ((Value.str t).slice start stop).run.run σ =
    (Eval.outcome ((Index.cut t.toList.toArray start stop).map fun cs => .str (.ofList cs.toList)), σ)
  rejoined_array (ref : Nat) (ty : Ty) (x : Float) (k : Nat)
    (h : Index.resolve x (σ.world.store.array ref).size true = .ok k) :
    ∃ r τ, ((Value.array ref ty).rejoined x).run.run σ = (.ok (.array r ty), τ) ∧
      τ.world.store.array r = σ.world.store.array ref
  rejoined_str (t : String) (x : Float) (k : Nat) (h : Index.resolve x t.toList.length true = .ok k) :
    ((Value.str t).rejoined x).run.run σ = (.ok (.str t), σ)

/-- The same for the stack machine, where there is room on the stack for both parts. -/
structure Bytecode.Vm.AccessesExact (vm : Vm) : Prop where
  at_array (ref : Nat) (x : Float) : (Exec.valueAt (.array ref) (.num x)).run.run vm =
    ((Index.pick (vm.store.array ref) x).mapError .panic, vm)
  at_str (t : String) (x : Float) : (Exec.valueAt (.str t) (.num x)).run.run vm =
    (((Index.pick t.toList.toArray x).map fun ch => Cell.str (.singleton ch)).mapError .panic, vm)
  set (ref : Nat) (x : Float) (v : Cell) : (Exec.setAt (.array ref) (.num x) v).run.run vm =
    match Index.put (vm.store.array ref) x v with
    | .ok ys => (.ok (), vm.withStore (vm.store.setArray ref ys))
    | .error p => (.error (.panic p), vm)
  slice_array (ref : Nat) (start stop : Option Float) : (Exec.pushSlice (.array ref) start stop).run.run vm =
    match Index.cut (vm.store.array ref) start stop with
    | .ok ys => (Exec.pushArray ys).run.run vm
    | .error p => (.error (.panic p), vm)
  slice_str (t : String) (start stop : Option Float) : (Exec.pushSlice (.str t) start stop).run.run vm =
    match Index.cut t.toList.toArray start stop with
    | .ok cs => (Exec.push (.str (.ofList cs.toList))).run.run vm
    | .error p => (.error (.panic p), vm)
  rejoined_array (ref : Nat) (x : Float) (k : Nat) (hroom : vm.sp + 2 ≤ vm.stack.size)
    (h : Index.resolve x (vm.store.array ref).size true = .ok k) :
    ∃ r τ, (Exec.rejoined (.array ref) x .arrayConcatenate).run.run vm = (.ok (), τ) ∧
      τ.sp = vm.sp + 1 ∧ τ.stack[vm.sp]? = some (.array r) ∧ τ.store.array r = vm.store.array ref
  rejoined_str (t : String) (x : Float) (k : Nat) (hroom : vm.sp + 2 ≤ vm.stack.size)
    (h : Index.resolve x t.toList.length true = .ok k) :
    ∃ τ, (Exec.rejoined (.str t) x .stringConcatenate).run.run vm = (.ok (), τ) ∧
      τ.sp = vm.sp + 1 ∧ τ.stack[vm.sp]? = some (.str t)

/-- A number without a fraction denotes a place if its integer value is at least `-len` and at most `len`
for a bound, or `len - 1` for an element. It denotes the same place if all steps are made in 64 bits, and
reads, writes and slices have nothing out of range in both ways to run programs. -/
theorem accesses_exact :
    (∀ (x : Float) (len k : Nat) (isBound : Bool), len < Nat.pow 2 63 → Number.isInteger x →
      (Index.resolve x len isBound = .ok k ↔
        -(len : Int) ≤ Number.toInt64 x ∧ Number.toInt64 x ≤ (if isBound then (len : Int) else len - 1) ∧
          (k : Int) = if Number.toInt64 x < 0 then len + Number.toInt64 x else Number.toInt64 x) ∧
      Index.resolve x len isBound = Index.resolveWord (Int64.ofInt (Number.toInt64 x)) len isBound) ∧
    (∀ (x : Float) (len k : Nat), Index.resolve x len false = .ok k → k < len) ∧
    (∀ (x : Float) (len k : Nat), Index.resolve x len true = .ok k → k ≤ len) ∧
    (∀ (start stop : Option Float) (len a b : Nat), Index.slice start stop len = .ok (a, b) →
      a ≤ b ∧ b ≤ len) ∧
    (∀ σ : Machine, σ.AccessesExact) ∧ ∀ vm : Bytecode.Vm, vm.AccessesExact := by
  refine ⟨fun x len k isBound hlen hint => ⟨?_, Index.resolve_eq_resolveWord hint hlen⟩,
    fun x len k => Index.lt_of_resolve, fun x len k h => (Index.resolve_le h).1,
    fun start stop len a b => Index.slice_le, fun σ => ?_, fun vm => ?_⟩
  · rw [Index.resolve_eq hint]
    exact Index.resolveInt_eq_ok_iff
  · exact {
      at_array := fun ref ty x => Value.run_at_array
      at_str := fun t x => Value.run_at_str
      set := fun ref x v => Value.run_setElem
      slice_array := fun ref ty start stop => Value.run_slice_array
      slice_str := fun t start stop => Value.run_slice_str
      rejoined_array := fun ref ty x k => Value.rejoined_array
      rejoined_str := fun t x k => Value.rejoined_str }
  · exact {
      at_array := fun ref x => Bytecode.Exec.run_valueAt_array
      at_str := fun t x => Bytecode.Exec.run_valueAt_str
      set := fun ref x v => Bytecode.Exec.run_setAt
      slice_array := fun ref start stop => Bytecode.Exec.run_pushSlice_array
      slice_str := fun t start stop => Bytecode.Exec.run_pushSlice_str
      rejoined_array := fun ref x k => Bytecode.Exec.rejoined_array
      rejoined_str := fun t x k => Bytecode.Exec.rejoined_str }

/-- Storage with an array of three elements. -/
def threeElems {α : Type} (f : String → α) : Store α :=
  (Store.newArray {} #[f "a", f "b", f "c"]).2

theorem threeElems_accesses :
    (Index.resolve (-1.0) 3 true = .ok 2 ↔
      (-3 : Int) ≤ Number.toInt64 (-1.0) ∧ Number.toInt64 (-1.0) ≤ 3 ∧
        (2 : Int) = if Number.toInt64 (-1.0) < 0 then 3 + Number.toInt64 (-1.0) else Number.toInt64 (-1.0)) ∧
    (∃ r τ, ((Value.array 0 (.array .string)).rejoined (-1.0)).run.run (Machine.withStore {} (threeElems .str)) =
      (.ok (.array r (.array .string)), τ) ∧ τ.world.store.array r = #[.str "a", .str "b", .str "c"]) ∧
    ∃ r τ, (Bytecode.Exec.rejoined (.array 0) (-1.0) .arrayConcatenate).run.run
        { code := #[], constants := #[], store := threeElems .str } = (.ok (), τ) ∧
      τ.sp = 1 ∧ τ.stack[0]? = some (.array r) ∧ τ.store.array r = #[.str "a", .str "b", .str "c"] := by
  obtain ⟨hplace, -, -, -, heval, hvm⟩ := accesses_exact
  refine ⟨(hplace (-1.0) 3 2 true (by decide) rfl).1, (heval _).rejoined_array 0 (.array .string) (-1.0) 2 rfl,
    (hvm { code := #[], constants := #[], store := threeElems .str }).rejoined_array 0 (-1.0) 2 ?_ rfl⟩
  show 0 + 2 ≤ (Array.replicate Bytecode.stackSize Cell.none).size
  rw [Array.size_replicate]
  decide

end TinyScript
