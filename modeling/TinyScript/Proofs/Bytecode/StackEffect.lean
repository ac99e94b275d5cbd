import TinyScript.Bytecode.StackMachine
import TinyScript.Proofs.Bytecode.Chunk

/-!
# The effect of an instruction on the stack

What an instruction does to the height of the stack and to the current place depends on its operation
and operands alone (`Instr.next`), whatever values are on the stack. An instruction that finds enough
values, and whose operands denote a constant or a variable that exists, can fail because of the values
it finds or because the stack is full, but not because the code is malformed (`step_spec`).
-/

namespace TinyScript.Bytecode

/-- Whether an error says that the code is malformed. -/
def VmError.isMalformed : VmError → Bool
  | .unknownOpcode _ | .fault .stackUnderflow | .fault (.noConstant _) | .fault (.noGlobal _) => true
  | .stackOverflow | .fault (.expected ..) | .panic _ | .endless => false

namespace Instr

/-- The number of values that an instruction expects on the stack. -/
def needs (i : Instr) : Nat :=
  match i.op with
  | .iterRange => 1
  | _ => i.pops

/-- The places and heights of the stack that can follow after an instruction at place `pos` and
height `h`. -/
def next (i : Instr) (pos h : Nat) : List (Nat × Nat) :=
  match i.op with
  | .jump => [(i.operands.headD 0, h)]
  | .jumpNotTruthy => [(pos + 3, h - 1), (i.operands.headD 0, h - 1)]
  | .iterRange => [(pos + 5, i.heightAfter h), (i.operands.getD 1 0, h - 1)]
  | _ => [(pos + i.size, i.heightAfter h)]

/-- The operand of an instruction denotes one of `constants` constants or `globals` variables. -/
def Denotes (i : Instr) (constants globals : Nat) : Prop :=
  match i.op with
  | .constant => i.operands.headD 0 < constants
  | .getGlobal | .setGlobal => i.operands.headD 0 < globals
  | _ => True

end Instr

namespace Exec
variable {α β : Type} {vm₀ : Vm} {l h h' h'' : Nat}

/-! ### Steps that keep to the stack -/

/-- A machine of height `h` that else has the shape of `vm₀`, and the same values in the lowest `l` slots of
the stack. -/
structure Shape (l : Nat) (vm₀ : Vm) (h : Nat) (vm : Vm) : Prop where
  code : vm.code = vm₀.code
  constants : vm.constants = vm₀.constants
  globals : vm.globals.size = vm₀.globals.size
  ip : vm.ip = vm₀.ip
  sp : vm.sp = h
  below : ∀ j < l, vm.stack[j]? = vm₀.stack[j]?

theorem run_bind {ε : Type} (m : ExceptT ε (StateM Vm) α) (f : α → ExceptT ε (StateM Vm) β) (vm : Vm) :
    (m >>= f).run.run vm = match m.run.run vm with
      | (.ok a, vm') => (f a).run.run vm'
      | (.error e, vm') => (.error e, vm') := by
  show (ExceptT.run m >>= ExceptT.bindCont f : StateM Vm _) vm = _
  simp only [bind, StateT.bind, ExceptT.bindCont]
  rcases hm : m.run.run vm with ⟨_ | _, vm'⟩ <;>
    simp only [StateT.run] at hm <;> rw [hm] <;> rfl

/-- From height `h` a step of the machine ends at height `h'` and changes nothing else of its shape,
or it fails for a reason that is not in the code. -/
def Moves (l : Nat) (vm₀ : Vm) (m : Exec α) (h h' : Nat) : Prop :=
  ∀ vm, Shape l vm₀ h vm → match m.run.run vm with
    | (.ok _, vm') => Shape l vm₀ h' vm'
    | (.error e, _) => e.isMalformed = false

namespace Moves

theorem pure (a : α) : Moves l vm₀ (Pure.pure a) h h := fun _ hs => hs

theorem bind {m : Exec α} {f : α → Exec β} (hm : Moves l vm₀ m h h')
    (hf : ∀ a, Moves l vm₀ (f a) h' h'') : Moves l vm₀ (m >>= f) h h'' := by
  intro vm hs
  rw [run_bind]
  have := hm vm hs
  rcases hr : m.run.run vm with ⟨_ | a, vm'⟩
  · rw [hr] at this; exact this
  · rw [hr] at this; exact hf a vm' this

theorem throw {e : VmError} (he : e.isMalformed = false) :
    Moves l vm₀ (MonadExcept.throw e : Exec α) h h' := fun _ _ => he

theorem mistyped (what : String) (found : Cell) : Moves l vm₀ (mistyped what found : Exec α) h h' :=
  throw rfl

theorem orPanic (r : Except Panic α) : Moves l vm₀ (orPanic r) h h := by
  cases r with
  | ok a => exact pure a
  | error p => exact throw rfl

theorem answered (o : Option α) : Moves l vm₀ (answered o) h h := by
  cases o with
  | some a => exact pure a
  | none => exact throw rfl

theorem get : Moves l vm₀ get h h := fun _ hs => hs

theorem bindGet {f : Vm → Exec β} (hf : ∀ vm, Shape l vm₀ h vm → Moves l vm₀ (f vm) h h') :
    Moves l vm₀ (MonadState.get >>= f) h h' := fun vm hs => hf vm hs vm hs

theorem store : Moves l vm₀ store h h := bind get fun _ => pure _

theorem modify {f : Vm → Vm} (hf : ∀ vm, Shape l vm₀ h vm → Shape l vm₀ h' (f vm)) :
    Moves l vm₀ (modify f) h h' := fun vm hs => hf vm hs

theorem modifyGet {f : Vm → α × Vm} (hf : ∀ vm, Shape l vm₀ h vm → Shape l vm₀ h' (f vm).2) :
    Moves l vm₀ (modifyGet f) h h' := fun vm hs => hf vm hs

theorem push (hl : l ≤ h) (c : Cell) : Moves l vm₀ (push c) h (h + 1) := by
  refine bind get fun vm => ?_
  split
  · refine modify fun vm hs => ⟨hs.code, hs.constants, hs.globals, hs.ip, congrArg (· + 1) hs.sp, ?_⟩
    intro j hj
    have hne : vm.sp ≠ j := by rw [hs.sp]; omega
    exact (Array.getElem?_setIfInBounds_ne hne).trans (hs.below j hj)
  · exact throw rfl

theorem drop (n : Nat) : Moves l vm₀ (drop n) (h + n) h := by
  refine bindGet fun vm hs => ?_
  have hsp : ¬ vm.sp < n := by rw [hs.sp]; omega
  rw [if_neg hsp]
  refine modify fun vm hs => ⟨hs.code, hs.constants, hs.globals, hs.ip, ?_, hs.below⟩
  show vm.sp - n = h
  rw [hs.sp, Nat.add_sub_cancel]

theorem pop : Moves l vm₀ pop (h + 1) h := bind (drop 1) fun _ => bind get fun _ => pure _

theorem popMany (n : Nat) : Moves l vm₀ (popMany n) (h + n) h :=
  bind (drop n) fun _ => bind get fun _ => pure _

theorem popNum : Moves l vm₀ popNum (h + 1) h :=
  bind pop fun c => by cases c <;> first | exact pure _ | exact mistyped _ _

theorem popBool : Moves l vm₀ popBool (h + 1) h :=
  bind pop fun c => by cases c <;> first | exact pure _ | exact mistyped _ _

theorem popText : Moves l vm₀ popText (h + 1) h :=
  bind pop fun c => by cases c <;> first | exact pure _ | exact mistyped _ _

theorem popBound : Moves l vm₀ popBound (h + 1) h :=
  bind pop fun c => by cases c <;> first | exact pure _ | exact mistyped _ _

theorem onNums (hl : l ≤ h) (f : Float → Float → Cell) : Moves l vm₀ (onNums f) (h + 2) (h + 1) :=
  bind popNum fun _ => bind popNum fun _ => push hl _

theorem onTexts (hl : l ≤ h) (f : String → String → Cell) : Moves l vm₀ (onTexts f) (h + 2) (h + 1) :=
  bind popText fun _ => bind popText fun _ => push hl _

theorem pushArray (hl : l ≤ h) (elems : Array Cell) : Moves l vm₀ (pushArray elems) h (h + 1) :=
  bind (modifyGet fun _ hs => ⟨hs.code, hs.constants, hs.globals, hs.ip, hs.sp, hs.below⟩) fun _ => push hl _

theorem pushMap (hl : l ≤ h) (pairs : Pairs Cell) : Moves l vm₀ (pushMap pairs) h (h + 1) :=
  bind (modifyGet fun _ hs => ⟨hs.code, hs.constants, hs.globals, hs.ip, hs.sp, hs.below⟩) fun _ => push hl _

theorem pairUp (done : Pairs Cell) (cells : List Cell) : Moves l vm₀ (pairUp done cells) h h := by
  fun_induction Exec.pairUp done cells with
  | case1 done key value rest ih => exact ih
  | case2 => exact mistyped _ _
  | case3 => exact pure _

theorem valueAt (left index : Cell) : Moves l vm₀ (valueAt left index) h h := by
  unfold Exec.valueAt
  split
  · exact bind store fun _ => orPanic _
  · exact orPanic _
  · exact bind store fun _ => orPanic _
  · exact mistyped _ _

theorem setAt (container index value : Cell) : Moves l vm₀ (setAt container index value) h h := by
  unfold Exec.setAt
  split
  · exact bind store fun _ => bind (orPanic _) fun _ =>
      modify fun _ hs => ⟨hs.code, hs.constants, hs.globals, hs.ip, hs.sp, hs.below⟩
  · exact modify fun _ hs => ⟨hs.code, hs.constants, hs.globals, hs.ip, hs.sp, hs.below⟩
  · exact mistyped _ _

theorem pushSlice (hl : l ≤ h) (left : Cell) (start stop : Option Float) :
    Moves l vm₀ (pushSlice left start stop) h (h + 1) := by
  unfold Exec.pushSlice
  split
  · exact bind store fun _ => bind (orPanic _) fun _ => pushArray hl _
  · exact bind (orPanic _) fun _ => push hl _
  · exact mistyped _ _

theorem topIter : Moves l vm₀ topIter (h + 1) (h + 1) := by
  refine bindGet fun vm hs => ?_
  have hsp : ¬ vm.sp = 0 := by rw [hs.sp]; omega
  rw [if_neg hsp]
  dsimp only
  split
  · exact pure _
  · split
    · exact pure _
    · exact mistyped _ _

theorem advance (hl : l ≤ h) : Moves l vm₀ advance (h + 1) (h + 1) :=
  bind topIter fun _ => bind store fun _ => bind (modify fun vm hs =>
    ⟨hs.code, hs.constants, hs.globals, hs.ip, hs.sp, fun j hj =>
      have hne : vm.sp - 1 ≠ j := by rw [hs.sp]; omega
      (Array.getElem?_setIfInBounds_ne hne).trans (hs.below j hj)⟩) fun _ => pure _

end Moves

/-! ### Operations -/

/-- The operations that go on to the next instruction. -/
def goesOn : Opcode → Bool
  | .jump | .jumpNotTruthy | .iterRange => false
  | _ => true

theorem perform_moves (vm₀ : Vm) (hl : l ≤ h) {op : Opcode} {ns : List Nat} {m n : Nat} (hop : goesOn op)
    (hm : 0 < op.arity → m = ns.headD 0)
    (hd : Instr.Denotes ⟨op, ns⟩ vm₀.constants.size vm₀.globals.size) :
    Moves l vm₀ (perform op m n) (h + Instr.pops ⟨op, ns⟩) (h + Instr.pushes ⟨op, ns⟩) := by
  cases op with
  | constant =>
    refine .bindGet fun vm hs => ?_
    have hlt : m < vm.constants.size := by
      rw [hs.constants, hm Nat.one_pos]; exact hd
    rw [Array.getElem?_eq_getElem hlt]
    exact .push hl _
  | getGlobal =>
    refine .bindGet fun vm hs => ?_
    have hlt : m < vm.globals.size := by
      rw [hs.globals, hm Nat.one_pos]; exact hd
    rw [Array.getElem?_eq_getElem hlt]
    exact .push hl _
  | setGlobal =>
    refine .bind .pop fun c => .bindGet fun vm hs => ?_
    have hlt : m < vm.globals.size := by
      rw [hs.globals, hm Nat.one_pos]; exact hd
    rw [if_pos hlt]
    exact .modify fun vm hs =>
      ⟨hs.code, hs.constants, by simpa using hs.globals, hs.ip, hs.sp, hs.below⟩
  | drop => rw [hm Nat.one_pos]; exact .drop _
  | add | subtract | multiply | divide | modulo | numLess | numLessEqual | numGreater
  | numGreaterEqual => exact .onNums hl _
  | stringLess | stringLessEqual | stringGreater | stringGreaterEqual | stringConcatenate =>
    exact .onTexts hl _
  | true | false | none => exact .push hl _
  | not => exact .bind .popBool fun _ => .push hl _
  | minus => exact .bind .popNum fun _ => .push hl _
  | equal | notEqual =>
    exact .bind .pop fun _ => .bind .pop fun _ => .bind .store fun _ => .bind (.answered _) fun _ => .push hl _
  | array => rw [hm Nat.one_pos]; exact .bind (.popMany _) fun _ => .pushArray hl _
  | arrayConcatenate =>
    refine .bind .pop fun right => .bind .pop fun left => ?_
    split
    · exact .bind .store fun _ => .pushArray hl _
    · exact .mistyped _ _
  | map =>
    rw [hm Nat.one_pos]
    exact .bind (.popMany _) fun _ => .bind (.pairUp _ _) fun _ => .pushMap hl _
  | index => exact .bind .pop fun _ => .bind .pop fun _ => .bind (.valueAt _ _) fun _ => .push hl _
  | setIndex => exact .bind .pop fun _ => .bind .pop fun _ => .bind .pop fun _ => .setAt _ _ _
  | slice => exact .bind .popBound fun _ => .bind .popBound fun _ => .bind .pop fun _ =>
      .pushSlice hl _ _ _
  | stepRange =>
    refine .bind .popBound fun _ => .bind .popNum fun _ => .bind .popBound fun _ => ?_
    split
    · exact .bind (.throw rfl) fun _ => .push hl _
    · exact .push hl _
  | jump | jumpNotTruthy | iterRange => cases hop

end Exec

open Exec

/-! ### Instructions -/

variable {vm : Vm} {byte : UInt8} {i : Instr}

theorem InstrAt.first_operand {code : Code} {pos : Nat} (h : InstrAt code pos i)
    (ha : 0 < i.op.arity) : code.word (pos + 1) = i.operands.headD 0 := by
  rw [← h.2, Code.operands]
  obtain ⟨n, hn⟩ : ∃ n, i.op.arity = n + 1 := ⟨i.op.arity - 1, by omega⟩
  rw [hn, List.range_succ_eq_map]
  rfl

theorem InstrAt.second_operand {code : Code} {pos : Nat} (h : InstrAt code pos i)
    (ha : 1 < i.op.arity) : code.word (pos + 3) = i.operands.getD 1 0 := by
  rw [← h.2, Code.operands]
  simp [ha, Nat.add_assoc]

/-- A step does the operation of the instruction at the current place, with the next place as the
current one. -/
theorem step_eq (hb : vm.fetch? = some byte) (hi : InstrAt vm.code vm.ip i) :
    vm.step byte = (perform i.op (vm.code.word (vm.ip + 1)) (vm.code.word (vm.ip + 3))).run.run
      { vm with ip := vm.ip + i.size } := by
  have hbyte : byte = i.op.toByte := Option.some.inj (hb.symm.trans hi.1)
  simp only [Vm.step, instruction, hbyte, Opcode.ofByte?_toByte]
  rfl

/-- A machine has the code and the variables of another one, and the same values in the lowest `l` slots
of the stack. -/
structure Alike (l : Nat) (vm vm' : Vm) : Prop where
  code : vm'.code = vm.code
  constants : vm'.constants = vm.constants
  globals : vm'.globals.size = vm.globals.size
  below : ∀ j < l, vm'.stack[j]? = vm.stack[j]?

theorem Alike.trans {l : Nat} {vm vm' vm'' : Vm} (h : Alike l vm vm') (h' : Alike l vm' vm'') :
    Alike l vm vm'' :=
  ⟨h'.code.trans h.code, h'.constants.trans h.constants, h'.globals.trans h.globals,
    fun j hj => (h'.below j hj).trans (h.below j hj)⟩

theorem Exec.Shape.alike {l h : Nat} {vm vm' : Vm} (hs : Shape l vm h vm') : Alike l vm vm' :=
  ⟨hs.code, hs.constants, hs.globals, hs.below⟩

/-- What can follow after a step: a machine like the one before at one of the given places and heights,
or an error that is not in the code. -/
def Follows (l : Nat) (vm : Vm) (next : List (Nat × Nat)) : Except VmError Unit × Vm → Prop
  | (.ok (), vm') => Alike l vm vm' ∧ (vm'.ip, vm'.sp) ∈ next
  | (.error e, _) => e.isMalformed = false

section
variable {l : Nat} {next : List (Nat × Nat)}

/-- A step that keeps to the stack, and then one more. -/
theorem Follows.bind {α : Type} {vm₀ vm : Vm} {h h' : Nat} {m : Exec α} {f : α → Exec Unit}
    (hm : Moves l vm m h h') (hsp : vm.sp = h)
    (hf : ∀ a vm', Shape l vm h' vm' → Follows l vm₀ next ((f a).run.run vm')) :
    Follows l vm₀ next ((m >>= f).run.run vm) := by
  rw [run_bind]
  have := hm vm ⟨rfl, rfl, rfl, rfl, hsp, fun _ _ => rfl⟩
  rcases hr : m.run.run vm with ⟨_ | a, vm'⟩ <;> rw [hr] at this
  · exact this
  · exact hf a vm' this

theorem Follows.of_moves {h : Nat} {vm₀ : Vm} {m : Exec Unit} (hm : Moves l vm m vm.sp h)
    (hv : Alike l vm₀ vm) (hnext : (vm.ip, h) ∈ next) : Follows l vm₀ next (m.run.run vm) := by
  have := hm vm ⟨rfl, rfl, rfl, rfl, rfl, fun _ _ => rfl⟩
  rcases hr : m.run.run vm with ⟨_ | ⟨⟩, vm'⟩ <;> rw [hr] at this
  · exact this
  · refine ⟨hv.trans this.alike, ?_⟩
    rw [this.ip, this.sp]
    exact hnext

/-- An instruction that finds what it needs above the lowest `l` values goes on as its operation says,
whatever the values are, and leaves the lowest ones alone. -/
theorem step_spec (hb : vm.fetch? = some byte) (hi : InstrAt vm.code vm.ip i)
    (hn : l + i.needs ≤ vm.sp) (hd : i.Denotes vm.constants.size vm.globals.size) :
    Follows l vm (i.next vm.ip vm.sp) (vm.step byte) := by
  rw [step_eq hb hi]
  have h1 := hi.first_operand
  have h2 := hi.second_operand
  have hsame (ip : Nat) : Alike l vm { vm with ip } := ⟨rfl, rfl, rfl, fun _ _ => rfl⟩
  obtain ⟨op, ns⟩ := i
  by_cases hop : goesOn op
  · have hneeds : l + Instr.pops ⟨op, ns⟩ ≤ vm.sp := by cases op <;> first | exact hn | cases hop
    have hmoves := perform_moves { vm with ip := vm.ip + Instr.size ⟨op, ns⟩ }
      (n := vm.code.word (vm.ip + 3)) (Nat.le_sub_of_add_le hneeds) hop h1 hd
    rw [Nat.sub_add_cancel (Nat.le_trans (Nat.le_add_left ..) hneeds)] at hmoves
    refine .of_moves hmoves (hsame _) ?_
    cases op <;> first | exact List.mem_singleton_self _ | cases hop
  · cases op with
    | jump => exact ⟨hsame _, by rw [h1 Nat.one_pos]; exact List.mem_singleton_self _⟩
    | jumpNotTruthy =>
      obtain ⟨g, hg⟩ : ∃ g, vm.sp = g + 1 := ⟨vm.sp - 1, by simp [Instr.needs, Instr.pops] at hn; omega⟩
      refine .bind (.popBool (h := g)) hg fun b vm' hs => ?_
      cases b with
      | true =>
        refine ⟨(hsame _).trans hs.alike, ?_⟩
        show (vm'.ip, vm'.sp) ∈ _
        rw [hs.ip, hs.sp]
        simp [Instr.next, hg, Instr.size, Opcode.size, Opcode.arity]
      | false =>
        refine ⟨⟨hs.code, hs.constants, hs.globals, hs.below⟩, ?_⟩
        show (vm.code.word (vm.ip + 1), vm'.sp) ∈ _
        rw [hs.sp, h1 Nat.one_pos]
        simp [Instr.next, hg]
    | iterRange =>
      obtain ⟨g, hg⟩ : ∃ g, vm.sp = g + 1 := ⟨vm.sp - 1, by simp [Instr.needs] at hn; omega⟩
      have hl : l ≤ g := by simp [Instr.needs] at hn; omega
      refine .bind (.advance (h := g) hl) hg fun c vm' hs => ?_
      have hv := (hsame _).trans hs.alike
      cases c with
      | some c =>
        show Follows l vm _ ((if vm.code.word (vm.ip + 1) ≠ 0 then push c else pure () :
          Exec Unit).run.run vm')
        rw [h1 Nat.two_pos]
        split
        · next hne =>
          have hp : Instr.pushes ⟨.iterRange, ns⟩ = 1 := if_neg hne
          refine .of_moves (.push (by rw [hs.sp]; omega) c) hv (List.mem_cons.2 (.inl ?_))
          rw [hs.ip, hs.sp, Instr.heightAfter, hp, hg]
          rfl
        · next he =>
          have hp : Instr.pushes ⟨.iterRange, ns⟩ = 0 := if_pos (not_not.1 he)
          refine .of_moves (.pure ()) hv (List.mem_cons.2 (.inl ?_))
          rw [hs.ip, hs.sp, Instr.heightAfter, hp, hg]
          rfl
      | none =>
        refine .bind (.drop 1) hs.sp fun _ vm'' hs'' => ?_
        refine ⟨hv.trans ⟨hs''.code, hs''.constants, hs''.globals, hs''.below⟩, ?_⟩
        show (vm.code.word (vm.ip + 3), vm''.sp) ∈ _
        rw [hs''.sp, h2 Nat.one_lt_two]
        simp [Instr.next, hg]
    | _ => exact absurd rfl hop

end

end TinyScript.Bytecode
