import TinyScript.Proofs.Bytecode.StackEffect

/-!
# Steps of the machine on configurations

A configuration (`Conf`) is what the machine computes with: the values on its stack without the slots
that are free, its variables, its storage and the current place. `Acts m s r` says what a step does
from configuration `s` on, unless the stack is full. There is one lemma for each step of the machine,
for stacks on which it finds what it expects.
-/

namespace TinyScript.Bytecode

/-- What the machine computes with. The stack has the value on top first. -/
structure Conf where
  ip : Nat
  stack : List Cell
  globals : Array Cell
  store : Store Cell

/-- The values on the stack, the one on top first. -/
def Vm.live (vm : Vm) : List Cell :=
  (vm.stack.toList.take vm.sp).reverse

section
variable {vm : Vm} {c : Cell} {rest : List Cell}

theorem Vm.length_live (h : vm.sp ≤ vm.stack.size) : vm.live.length = vm.sp := by
  simp [live, h]

theorem Vm.live_push (h : vm.sp < vm.stack.size) (c : Cell) :
    Vm.live { vm with stack := vm.stack.setIfInBounds vm.sp c, sp := vm.sp + 1 } = c :: vm.live := by
  have hlt : vm.sp < vm.stack.toList.length := h
  simp only [live, Array.toList_setIfInBounds]
  rw [List.take_succ_eq_append_getElem (by rwa [List.length_set]), List.getElem_set_self,
    List.take_set_of_le (Nat.le_refl _), List.reverse_append]
  rfl

theorem Vm.live_drop (h : vm.sp ≤ vm.stack.size) {n : Nat} :
    Vm.live { vm with sp := vm.sp - n } = vm.live.drop n := by
  have hlen : (vm.stack.toList.take vm.sp).length = vm.sp := by simp [h]
  simp only [live]
  rw [List.drop_reverse, List.take_take, hlen, Nat.min_eq_left (Nat.sub_le _ _)]

theorem Vm.getElem?_live (h : vm.sp ≤ vm.stack.size) {i : Nat} (hi : i < vm.sp) :
    vm.live[i]? = vm.stack[vm.sp - 1 - i]? := by
  have hlen : (vm.stack.toList.take vm.sp).length = vm.sp := by simp [h]
  rw [live, List.getElem?_reverse (by rwa [hlen]), hlen, List.getElem?_take_of_lt (by omega),
    Array.getElem?_toList]

theorem Vm.getElem?_top (h : vm.sp ≤ vm.stack.size) (hlive : vm.live = c :: rest) :
    vm.stack[vm.sp - 1]? = some c := by
  have hpos : 0 < vm.sp := by
    rw [← Vm.length_live h, hlive]
    exact Nat.succ_pos _
  rw [← Nat.sub_zero (vm.sp - 1), ← Vm.getElem?_live h hpos, hlive]
  rfl

theorem Vm.live_setTop (h : vm.sp ≤ vm.stack.size) (hlive : vm.live = c :: rest) (d : Cell) :
    Vm.live { vm with stack := vm.stack.setIfInBounds (vm.sp - 1) d } = d :: rest := by
  have htake : vm.stack.toList.take vm.sp = rest.reverse ++ [c] := by
    have := congrArg List.reverse hlive
    rwa [live, List.reverse_reverse, List.reverse_cons] at this
  have hsp : vm.sp - 1 = rest.reverse.length := by
    rw [← Vm.length_live h, hlive]
    simp
  simp only [live, Array.toList_setIfInBounds]
  rw [List.take_set, htake, hsp, List.set_append_right _ _ (Nat.le_refl _), Nat.sub_self]
  simp

/-- The `n` slots that `popMany` frees. -/
theorem Vm.extract_live (h : vm.sp ≤ vm.stack.size) {n : Nat} (hn : n ≤ vm.sp) :
    vm.stack.extract (vm.sp - n) (vm.sp - n + n) = (vm.live.take n).reverse.toArray := by
  have hlen : (vm.stack.toList.take vm.sp).length = vm.sp := by simp [h]
  rw [← Array.toList_inj, Array.toList_extract, List.extract_eq_take_drop, live, List.take_reverse,
    List.reverse_reverse, hlen, List.drop_take]
  congr 1
  omega

end

theorem Exec.run_push (c : Cell) (vm : Vm) : (push c).run.run vm =
    if vm.sp < vm.stack.size then
      (.ok (), { vm with stack := vm.stack.setIfInBounds vm.sp c, sp := vm.sp + 1 })
    else (.error .stackOverflow, vm) := by
  show (if vm.sp < vm.stack.size then _ else throw .stackOverflow : Exec Unit).run.run vm = _
  split <;> rfl

theorem Exec.run_drop {n : Nat} {vm : Vm} (h : n ≤ vm.sp) :
    (drop n).run.run vm = (.ok (), { vm with sp := vm.sp - n }) := by
  show (if vm.sp < n then fault .stackUnderflow >>= _ else _ : Exec Unit).run.run vm = _
  rw [if_neg (Nat.not_lt.2 h)]
  rfl

/-- The iterator that a value is, or that runs through it. -/
def Cell.iter? (st : Store Cell) : Cell → Option RangeIter
  | .range iter => some iter
  | c => RangeIter.over? st c

/-- A machine with the code `a` is in a configuration. -/
structure Vm.In (a : Assembly) (s : Conf) (vm : Vm) : Prop where
  code : vm.code = a.code
  constants : vm.constants = a.constants
  ip : vm.ip = s.ip
  live : vm.live = s.stack
  sp_le : vm.sp ≤ vm.stack.size
  globals : vm.globals = s.globals
  store : vm.store = s.store

theorem Vm.In.sp_eq {a : Assembly} {s : Conf} {vm : Vm} (h : vm.In a s) : vm.sp = s.stack.length := by
  rw [← h.live, Vm.length_live h.sp_le]

/-- From configuration `s` a step of the machine has the given result, unless the stack is full. -/
def Acts {α : Type} (a : Assembly) (m : Exec α) (s : Conf) (r : Except Panic (α × Conf)) : Prop :=
  ∀ vm : Vm, vm.In a s → match m.run.run vm, r with
    | (.error .stackOverflow, _), _ => True
    | (.ok x, vm'), .ok (y, s') => x = y ∧ vm'.In a s'
    | (.error (.panic p), _), .error q => p = q
    | _, _ => False

namespace Acts
open Exec
variable {α β : Type} {a : Assembly} {s s' : Conf} {r : Except Panic (β × Conf)} {m : Exec α}
  {f : α → Exec β} {x : α} {c : Cell} {rest : List Cell} {p : Panic}

theorem pure (x : α) : Acts a (Pure.pure x) s (.ok (x, s)) :=
  fun _ hvm => ⟨rfl, hvm⟩

theorem bind (hm : Acts a m s (.ok (x, s'))) (hf : Acts a (f x) s' r) : Acts a (m >>= f) s r := by
  intro vm hvm
  rw [run_bind]
  have := hm vm hvm
  rcases hr : m.run.run vm with ⟨e | y, vm'⟩ <;> rw [hr] at this
  · cases e with
    | stackOverflow => trivial
    | _ => cases this
  · obtain ⟨rfl, hvm'⟩ := this
    exact hf vm' hvm'

theorem bind_panic (hm : Acts a m s (.error p)) : Acts a (m >>= f) s (.error p) := by
  intro vm hvm
  rw [run_bind]
  have := hm vm hvm
  rcases hr : m.run.run vm with ⟨e | y, vm'⟩ <;> rw [hr] at this
  · cases e with
    | stackOverflow => trivial
    | panic q => exact this
    | _ => cases this
  · cases this

theorem bindGet {f : Vm → Exec β} (hf : ∀ vm : Vm, vm.In a s → Acts a (f vm) s r) :
    Acts a (get >>= f) s r :=
  fun vm hvm => hf vm hvm vm hvm

theorem panic (p : Panic) : Acts a (throw (.panic p) : Exec α) s (.error p) :=
  fun _ _ => rfl

theorem orPanic (r : Except Panic α) : Acts a (orPanic r) s (r.map (·, s)) := by
  cases r with
  | ok x => exact pure x
  | error p => exact panic p

/-- A result that can be a panic, and a step for the case that it is none. -/
theorem orPanic_bind {t : Except Panic α} {g : α → β × Conf}
    (hf : ∀ x, t = .ok x → Acts a (f x) s (.ok (g x))) :
    Acts a (Exec.orPanic t >>= f) s (t.map g) := by
  cases ht : t with
  | ok x => exact bind (.pure x) (hf x ht)
  | error p => exact bind_panic (.panic p)

theorem store : Acts a store s (.ok (s.store, s)) :=
  bindGet fun vm hvm => hvm.store ▸ pure vm.store

theorem answered (x : α) : Acts a (answered (some x)) s (.ok (x, s)) :=
  pure x

theorem jump (target : Nat) : Acts a (jump target) s (.ok ((), { s with ip := target })) :=
  fun _ hvm => ⟨rfl, hvm.code, hvm.constants, rfl, hvm.live, hvm.sp_le, hvm.globals, hvm.store⟩

/-! ### The stack -/

theorem push (c : Cell) : Acts a (push c) s (.ok ((), { s with stack := c :: s.stack })) := by
  intro vm hvm
  rw [run_push]
  by_cases hlt : vm.sp < vm.stack.size
  · rw [if_pos hlt]
    refine ⟨rfl, hvm.code, hvm.constants, hvm.ip, ?_, ?_, hvm.globals, hvm.store⟩
    · rw [Vm.live_push hlt, hvm.live]
    · show vm.sp + 1 ≤ (vm.stack.setIfInBounds vm.sp c).size
      rwa [Array.size_setIfInBounds]
  · rw [if_neg hlt]
    trivial

theorem drop {n : Nat} (hn : n ≤ s.stack.length) :
    Acts a (drop n) s (.ok ((), { s with stack := s.stack.drop n })) := by
  intro vm hvm
  rw [run_drop (hvm.sp_eq ▸ hn)]
  refine ⟨rfl, hvm.code, hvm.constants, hvm.ip, ?_, ?_, hvm.globals, hvm.store⟩
  · rw [Vm.live_drop hvm.sp_le, hvm.live]
  · exact Nat.le_trans (Nat.sub_le _ _) hvm.sp_le

/-- Popped values are still in the slots above the stack. -/
theorem popMany {n : Nat} (hn : n ≤ s.stack.length) : Acts a (popMany n) s
    (.ok ((s.stack.take n).reverse.toArray, { s with stack := s.stack.drop n })) := by
  intro vm hvm
  have hle : n ≤ vm.sp := hvm.sp_eq ▸ hn
  have hdrop := drop (a := a) hn vm hvm
  rw [run_drop hle] at hdrop
  rw [Exec.popMany, run_bind, run_drop hle]
  refine ⟨?_, hdrop.2⟩
  show vm.stack.extract (vm.sp - n) (vm.sp - n + n) = _
  rw [Vm.extract_live hvm.sp_le hle, hvm.live]

theorem pop (hs : s.stack = c :: rest) : Acts a pop s (.ok (c, { s with stack := rest })) := by
  intro vm hvm
  have hlen : 1 ≤ s.stack.length := by rw [hs]; exact Nat.le_add_left ..
  have hle : 1 ≤ vm.sp := hvm.sp_eq ▸ hlen
  have hdrop := drop (a := a) hlen vm hvm
  rw [run_drop hle, hs] at hdrop
  rw [Exec.pop, run_bind, run_drop hle]
  refine ⟨?_, hdrop.2⟩
  show vm.stack.getD (vm.sp - 1) .none = c
  rw [Array.getD_eq_getD_getElem?, Vm.getElem?_top hvm.sp_le (hvm.live.trans hs)]
  rfl

section
variable {x y : Float}

theorem popNum (hs : s.stack = .num x :: rest) :
    Acts a popNum s (.ok (x, { s with stack := rest })) :=
  bind (pop hs) (pure x)

theorem popBool {b : Bool} (hs : s.stack = .bool b :: rest) :
    Acts a popBool s (.ok (b, { s with stack := rest })) :=
  bind (pop hs) (pure b)

theorem popText {t : String} (hs : s.stack = .str t :: rest) :
    Acts a popText s (.ok (t, { s with stack := rest })) :=
  bind (pop hs) (pure t)

/-- The value on the stack for a number that can be left out. -/
def bound : Option Float → Cell
  | some x => .num x
  | none => .none

theorem popBound {x : Option Float} (hs : s.stack = bound x :: rest) :
    Acts a popBound s (.ok (x, { s with stack := rest })) := by
  cases x <;> exact bind (pop hs) (pure _)

theorem onNums {g : Float → Float → Cell} (hs : s.stack = .num y :: .num x :: rest) :
    Acts a (onNums g) s (.ok ((), { s with stack := g x y :: rest })) :=
  bind (popNum hs) (bind (popNum rfl) (push _))

theorem onTexts {g : String → String → Cell} {t u : String}
    (hs : s.stack = .str u :: .str t :: rest) :
    Acts a (onTexts g) s (.ok ((), { s with stack := g t u :: rest })) :=
  bind (popText hs) (bind (popText rfl) (push _))

end

/-! ### Arrays and maps -/

/-- Storage changes, and with it the result of a step. -/
theorem modifyGetStore (g : Store Cell → α × Store Cell) :
    Acts a (modifyGet fun vm : Vm => ((g vm.store).1, { vm with store := (g vm.store).2 })) s
      (.ok ((g s.store).1, { s with store := (g s.store).2 })) :=
  fun _ hvm => ⟨by rw [hvm.store], hvm.code, hvm.constants, hvm.ip, hvm.live, hvm.sp_le, hvm.globals,
    congrArg (fun st => (g st).2) hvm.store⟩

theorem modifyStore (g : Store Cell → Store Cell) :
    Acts a (modify fun vm : Vm => { vm with store := g vm.store }) s
      (.ok ((), { s with store := g s.store })) :=
  modifyGetStore fun st => ((), g st)

theorem pushArray (elems : Array Cell) : Acts a (pushArray elems) s (.ok ((), { s with
    stack := .array (s.store.newArray elems).1 :: s.stack
    store := (s.store.newArray elems).2 })) :=
  bind (modifyGetStore fun st => st.newArray elems) (push _)

theorem pushMap (pairs : Pairs Cell) : Acts a (pushMap pairs) s (.ok ((), { s with
    stack := .map (s.store.newMap pairs).1 :: s.stack
    store := (s.store.newMap pairs).2 })) :=
  bind (modifyGetStore fun st => st.newMap pairs) (push _)

theorem pairUp (done : Pairs Cell) (ps : List (String × Cell)) :
    Acts a (pairUp done (ps.flatMap fun (key, c) => [.str key, c])) s
      (.ok (ps.foldl (fun pairs (key, c) => pairs.insert key c) done, s)) := by
  induction ps generalizing done with
  | nil => exact pure done
  | cons p ps ih => exact ih (done.insert p.1 p.2)

theorem elemAt (ref : Nat) (x : Float) : Acts a (valueAt (.array ref) (.num x)) s
    ((s.store.elemAt ref x).map (·, s)) :=
  bind store (orPanic _)

theorem charAt (t : String) (x : Float) : Acts a (valueAt (.str t) (.num x)) s
    (((Index.charAt t x).map Cell.str).map (·, s)) :=
  orPanic _

theorem fieldOf (ref : Nat) (key : String) : Acts a (valueAt (.map ref) (.str key)) s
    ((s.store.fieldOf ref key).map (·, s)) :=
  bind store (orPanic _)

theorem setElem (ref : Nat) (x : Float) (c : Cell) : Acts a (setAt (.array ref) (.num x) c) s
    ((s.store.placeOf ref x).map fun i => ((), { s with store := s.store.setElem ref i c })) :=
  bind store (orPanic_bind fun i _ => modifyStore fun st => st.setElem ref i c)

theorem setField (ref : Nat) (key : String) (c : Cell) : Acts a (setAt (.map ref) (.str key) c) s
    (.ok ((), { s with store := s.store.modifyMap ref (·.insert key c) })) :=
  modifyStore fun st => st.modifyMap ref (·.insert key c)

theorem sliceArray (ref : Nat) (start stop : Option Float) :
    Acts a (pushSlice (.array ref) start stop) s
      ((s.store.sliceOf ref start stop).map fun elems => ((), { s with
        stack := .array (s.store.newArray elems).1 :: s.stack
        store := (s.store.newArray elems).2 })) :=
  bind store (orPanic_bind fun _ _ => pushArray _)

theorem sliceText (t : String) (start stop : Option Float) :
    Acts a (pushSlice (.str t) start stop) s
      ((Index.sliceText t start stop).map fun u => ((), { s with stack := .str u :: s.stack })) :=
  orPanic_bind fun _ _ => push _

/-! ### Loops -/

theorem advance {iter : RangeIter} (hs : s.stack = c :: rest) (hc : c.iter? s.store = some iter) :
    Acts a advance s (.ok ((iter.next s.store).1,
      { s with stack := .range (iter.next s.store).2 :: rest })) := by
  intro vm hvm
  have hlive := hvm.live.trans hs
  have hpos : ¬ vm.sp = 0 := by
    rw [hvm.sp_eq, hs]
    exact Nat.succ_ne_zero _
  have htop : (topIter : Exec RangeIter).run.run vm = (.ok iter, vm) := by
    have hget : (MonadState.get : Exec Vm).run.run vm = (.ok vm, vm) := rfl
    rw [topIter, run_bind, hget]
    dsimp only
    rw [if_neg hpos, Array.getD_eq_getD_getElem?, Vm.getElem?_top hvm.sp_le hlive]
    rw [← hvm.store] at hc
    cases c with
    | range => cases hc; rfl
    | num | bool | none => cases hc
    | str | array | map => cases hc; rfl
  have hrun : (Exec.advance).run.run vm = (.ok (iter.next vm.store).1, { vm with
      stack := vm.stack.setIfInBounds (vm.sp - 1) (.range (iter.next vm.store).2) }) := by
    rw [Exec.advance, run_bind, htop]
    rfl
  rw [hrun, ← hvm.store]
  refine ⟨rfl, hvm.code, hvm.constants, hvm.ip, Vm.live_setTop hvm.sp_le hlive _, ?_, hvm.globals, rfl⟩
  show vm.sp ≤ (vm.stack.setIfInBounds (vm.sp - 1) _).size
  rw [Array.size_setIfInBounds]
  exact hvm.sp_le

end Acts

end TinyScript.Bytecode
