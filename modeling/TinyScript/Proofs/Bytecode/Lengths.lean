import TinyScript.Proofs.Bytecode.StackEffect
import TinyScript.Proofs.Store

/-!
# Steps of the stack machine

A property that sequences hand on and the primitive steps have holds of every instruction
(`Exec.Stepwise.perform`). One such property is that no array changes its length, whatever the code and the
values are (`Vm.sameLengths_run`).
-/

namespace TinyScript.Bytecode

namespace Exec

/-- Sequences hand a property of steps on, and the primitive steps have it, unless they go on for ever. -/
structure Stepwise (P : (α : Type) → Exec α → Prop) : Prop where
  pure : ∀ {α : Type} (a : α), P α (Pure.pure a)
  bind : ∀ {α β : Type} {m : Exec α} {f : α → Exec β}, P α m → (∀ a, P β (f a)) → P β (m >>= f)
  throw : ∀ {α : Type} (e : VmError), e ≠ .endless → P α (MonadExcept.throw e)
  get : P Vm MonadState.get
  setElem : ∀ ref i value, P Unit (modify fun vm => { vm with store := vm.store.setElem ref i value })
  setField : ∀ ref key value, P Unit
    (modify fun vm => { vm with store := vm.store.modifyMap ref (·.insert key value) })
  modify : ∀ f : Vm → Vm, (∀ vm, (f vm).store = vm.store) → P Unit (modify f)
  newArray : ∀ elems : Array Cell, P Nat (modifyGet fun vm =>
    ((vm.store.newArray elems).1, { vm with store := (vm.store.newArray elems).2 }))
  newMap : ∀ pairs : Pairs Cell, P Nat (modifyGet fun vm =>
    ((vm.store.newMap pairs).1, { vm with store := (vm.store.newMap pairs).2 }))

namespace Stepwise
variable {P : (α : Type) → Exec α → Prop} (hP : Stepwise P)
include hP

theorem fault {α : Type} (f : Fault) : P α (Exec.fault f) := hP.throw _ nofun

theorem mistyped {α : Type} (what : String) (found : Cell) : P α (Exec.mistyped what found) := hP.fault _

theorem orPanic {α : Type} (r : Except Panic α) : P α (Exec.orPanic r) := by
  cases r with
  | ok a => exact hP.pure a
  | error p => exact hP.throw _ nofun

theorem store : P _ Exec.store := hP.bind hP.get fun _ => hP.pure _

/-! ### The stack -/

theorem push (c : Cell) : P _ (Exec.push c) := by
  refine hP.bind hP.get fun vm => ?_
  split
  · exact hP.modify _ fun _ => rfl
  · exact hP.throw _ nofun

theorem drop (n : Nat) : P _ (Exec.drop n) := by
  refine hP.bind hP.get fun vm => ?_
  dsimp only
  split
  · exact hP.bind (hP.fault _) fun _ => hP.modify _ fun _ => rfl
  · exact hP.modify _ fun _ => rfl

theorem pop : P _ Exec.pop := hP.bind (hP.drop 1) fun _ => hP.bind hP.get fun _ => hP.pure _

theorem popMany (n : Nat) : P _ (Exec.popMany n) :=
  hP.bind (hP.drop n) fun _ => hP.bind hP.get fun _ => hP.pure _

theorem popNum : P _ Exec.popNum := by
  refine hP.bind hP.pop fun c => ?_
  split
  · exact hP.pure _
  · exact hP.mistyped _ _

theorem popBool : P _ Exec.popBool := by
  refine hP.bind hP.pop fun c => ?_
  split
  · exact hP.pure _
  · exact hP.mistyped _ _

theorem popText : P _ Exec.popText := by
  refine hP.bind hP.pop fun c => ?_
  split
  · exact hP.pure _
  · exact hP.mistyped _ _

theorem popBound : P _ Exec.popBound := by
  refine hP.bind hP.pop fun c => ?_
  split
  · exact hP.pure _
  · exact hP.pure _
  · exact hP.mistyped _ _

theorem onNums (f : Float → Float → Cell) : P _ (Exec.onNums f) :=
  hP.bind hP.popNum fun _ => hP.bind hP.popNum fun _ => hP.push _

theorem onTexts (f : String → String → Cell) : P _ (Exec.onTexts f) :=
  hP.bind hP.popText fun _ => hP.bind hP.popText fun _ => hP.push _

/-! ### Arrays and maps -/

theorem pushArray (elems : Array Cell) : P _ (Exec.pushArray elems) :=
  hP.bind (hP.newArray elems) fun _ => hP.push _

theorem pushMap (pairs : Pairs Cell) : P _ (Exec.pushMap pairs) :=
  hP.bind (hP.newMap pairs) fun _ => hP.push _

theorem pairUp (done : Pairs Cell) (cells : List Cell) : P _ (Exec.pairUp done cells) := by
  fun_induction Exec.pairUp done cells with
  | case1 done key value rest ih => exact ih
  | case2 => exact hP.mistyped _ _
  | case3 => exact hP.pure _

theorem valueAt (left index : Cell) : P _ (Exec.valueAt left index) := by
  unfold Exec.valueAt
  split
  · exact hP.bind hP.store fun _ => hP.orPanic _
  · exact hP.orPanic _
  · exact hP.bind hP.store fun _ => hP.orPanic _
  · exact hP.mistyped _ _

theorem setAt (container index value : Cell) : P _ (Exec.setAt container index value) := by
  unfold Exec.setAt
  split
  · exact hP.bind hP.store fun _ => hP.bind (hP.orPanic _) fun _ => hP.setElem _ _ _
  · exact hP.setField _ _ _
  · exact hP.mistyped _ _

theorem pushSlice (left : Cell) (start stop : Option Float) : P _ (Exec.pushSlice left start stop) := by
  unfold Exec.pushSlice
  split
  · exact hP.bind hP.store fun _ => hP.bind (hP.orPanic _) fun _ => hP.pushArray _
  · exact hP.bind (hP.orPanic _) fun _ => hP.push _
  · exact hP.mistyped _ _

/-! ### Loops -/

theorem topIter : P _ Exec.topIter := by
  refine hP.bind hP.get fun vm => ?_
  dsimp only
  split
  on_goal 1 => refine hP.bind (hP.fault _) fun _ => ?_
  all_goals
    split
    · exact hP.pure _
    · split
      · exact hP.pure _
      · exact hP.mistyped _ _

theorem advance : P _ Exec.advance := by
  refine hP.bind hP.topIter fun iter => hP.bind hP.store fun s => ?_
  rcases iter.next s with ⟨value, iter⟩
  exact hP.bind (hP.modify _ fun _ => rfl) fun _ => hP.pure value

theorem jump (target : Nat) : P _ (Exec.jump target) := hP.modify _ fun _ => rfl

/-! ### Instructions -/

/-- An instruction has the property if it is no comparison, or having an answer to one has it, too. -/
theorem perform (op : Opcode) (m n : Nat)
    (hanswered : op = .equal ∨ op = .notEqual → ∀ o : Option Bool, P _ (answered o)) : P _ (perform op m n) := by
  cases op with
  | constant | getGlobal =>
    refine hP.bind hP.get fun vm => ?_
    split
    · exact hP.push _
    · exact hP.fault _
  | setGlobal =>
    refine hP.bind hP.pop fun c => hP.bind hP.get fun vm => ?_
    split
    · exact hP.modify _ fun _ => rfl
    · exact hP.fault _
  | drop => exact hP.drop _
  | add | subtract | multiply | divide | modulo | numLess | numLessEqual | numGreater
  | numGreaterEqual => exact hP.onNums _
  | stringLess | stringLessEqual | stringGreater | stringGreaterEqual | stringConcatenate =>
    exact hP.onTexts _
  | true | false | none => exact hP.push _
  | not => exact hP.bind hP.popBool fun _ => hP.push _
  | minus => exact hP.bind hP.popNum fun _ => hP.push _
  | equal =>
    exact hP.bind hP.pop fun _ => hP.bind hP.pop fun _ => hP.bind hP.store fun _ =>
      hP.bind (hanswered (.inl rfl) _) fun _ => hP.push _
  | notEqual =>
    exact hP.bind hP.pop fun _ => hP.bind hP.pop fun _ => hP.bind hP.store fun _ =>
      hP.bind (hanswered (.inr rfl) _) fun _ => hP.push _
  | array => exact hP.bind (hP.popMany _) fun _ => hP.pushArray _
  | arrayConcatenate =>
    refine hP.bind hP.pop fun right => hP.bind hP.pop fun left => ?_
    split
    · exact hP.bind hP.store fun _ => hP.pushArray _
    · exact hP.mistyped _ _
  | map => exact hP.bind (hP.popMany _) fun _ => hP.bind (hP.pairUp _ _) fun _ => hP.pushMap _
  | index => exact hP.bind hP.pop fun _ => hP.bind hP.pop fun _ => hP.bind (hP.valueAt _ _) fun _ => hP.push _
  | setIndex => exact hP.bind hP.pop fun _ => hP.bind hP.pop fun _ => hP.bind hP.pop fun _ => hP.setAt _ _ _
  | slice =>
    exact hP.bind hP.popBound fun _ => hP.bind hP.popBound fun _ => hP.bind hP.pop fun _ => hP.pushSlice _ _ _
  | jump => exact hP.jump _
  | jumpNotTruthy =>
    refine hP.bind hP.popBool fun b => ?_
    split
    · exact hP.jump _
    · exact hP.pure _
  | stepRange =>
    refine hP.bind hP.popBound fun _ => hP.bind hP.popNum fun _ => hP.bind hP.popBound fun _ => ?_
    dsimp only
    split
    · exact hP.bind (hP.throw _ nofun) fun _ => hP.push _
    · exact hP.push _
  | iterRange =>
    refine hP.bind hP.advance fun c => ?_
    split
    · split
      · exact hP.push _
      · exact hP.pure _
    · exact hP.bind (hP.drop 1) fun _ => hP.jump _

end Stepwise

/-! ### Lengths -/

/-- A step of the machine keeps the lengths of arrays, however it ends. -/
def KeepsLengths (α : Type) (m : Exec α) : Prop :=
  ∀ vm : Vm, vm.store.SameLengths (m.run.run vm).2.store

namespace KeepsLengths

variable {α β : Type}

/-- A step that leaves storage alone. -/
theorem still {m : Exec α} (hm : ∀ vm, (m.run.run vm).2.store = vm.store) : KeepsLengths α m := by
  intro vm
  rw [hm]
  exact .refl _

theorem bind {m : Exec α} {f : α → Exec β} (hm : KeepsLengths α m) (hf : ∀ a, KeepsLengths β (f a)) :
    KeepsLengths β (m >>= f) := by
  intro vm
  have hm := hm vm
  rw [run_bind]
  rcases hr : m.run.run vm with ⟨e | a, vm'⟩ <;> rw [hr] at hm
  · exact hm
  · exact hm.trans (hf a vm')

theorem stepwise : Stepwise KeepsLengths where
  pure _ := still fun _ => rfl
  bind := bind
  throw _ _ := still fun _ => rfl
  get := still fun _ => rfl
  modify _ hf := still hf
  newArray elems vm := .newArray vm.store elems
  newMap pairs vm := .newMap vm.store pairs
  setElem _ i value vm := .setElem vm.store _ i value
  setField _ _ _ vm := .modifyMap vm.store _ _

theorem instruction (byte : UInt8) : KeepsLengths _ (instruction byte) := by
  have hanswered (o : Option Bool) : KeepsLengths _ (answered o) := by
    cases o <;> exact still fun _ => rfl
  unfold Exec.instruction
  split
  · exact still fun _ => rfl
  · exact stepwise.bind stepwise.get fun _ => stepwise.bind (stepwise.jump _) fun _ =>
      stepwise.perform _ _ _ fun _ => hanswered

end KeepsLengths

end Exec

namespace Vm

theorem sameLengths_step (vm : Vm) (byte : UInt8) : vm.store.SameLengths (vm.step byte).2.store :=
  Exec.KeepsLengths.instruction byte vm

/-- Every state that a run of any code goes through, and its end, has the arrays of the start with as many
elements each. -/
theorem sameLengths_run (vm : Vm) (fuel : Nat) : vm.store.SameLengths (vm.run fuel).2.store := by
  induction fuel generalizing vm with
  | zero => exact .refl _
  | succ fuel ih =>
    rw [run]
    cases vm.fetch? with
    | none => exact .refl _
    | some byte =>
      have hstep := vm.sameLengths_step byte
      rcases hr : vm.step byte with ⟨e | ⟨⟩, vm'⟩ <;> rw [hr] at hstep <;> simp only [hr]
      · exact hstep
      · exact hstep.trans (ih vm')

end Vm

end TinyScript.Bytecode
