import TinyScript.Proofs.Bytecode.Lengths
import TinyScript.Proofs.Bytecode.StackDiscipline

/-!
# Loops over arrays in compiled code

A loop keeps its iterator on the stack, where the code of its body leaves it alone (`OnTrack.inside`). For
an array the iterator is the place of the next element, and `iterRange` reads the array as it is when it
gets there. Because the length of an array stays, the loop has as many rounds as there were elements when it
started (`Vm.laps_spec`).
-/

namespace TinyScript.Bytecode

open Assemble (placeholder)
open Exec

namespace Vm

/-- The value on top of the stack runs through array `ref`, where element `i` is next: it is the iterator,
or the array itself before the first round. -/
structure RunsThrough (vm : Vm) (ref i : Nat) : Prop where
  sp_pos : 0 < vm.sp
  top : vm.stack[vm.sp - 1]? = some (.range (.array ref i)) ∨ i = 0 ∧ vm.stack[vm.sp - 1]? = some (.array ref)

section
variable {vm υ : Vm} {ref i : Nat}

theorem RunsThrough.lt_size (h : vm.RunsThrough ref i) : vm.sp - 1 < vm.stack.size := by
  rcases h.top with h | ⟨-, h⟩ <;> exact (Array.getElem?_eq_some_iff.1 h).1

theorem RunsThrough.run_topIter (h : vm.RunsThrough ref i) :
    topIter.run.run vm = (.ok (.array ref i), vm) := by
  have hsp : ¬ vm.sp = 0 := Nat.ne_of_gt h.sp_pos
  have hget : (MonadState.get : Exec Vm).run.run vm = (.ok vm, vm) := rfl
  rw [topIter, run_bind, hget]
  dsimp only
  rw [if_neg hsp]
  rcases h.top with htop | ⟨rfl, htop⟩ <;> rw [Array.getD_eq_getD_getElem?, htop] <;> rfl

/-- The machine after a look at the iterator, which is left as `iter`. -/
def setTop (vm : Vm) (iter : RangeIter) : Vm :=
  { vm with stack := vm.stack.setIfInBounds (vm.sp - 1) (.range iter) }

theorem RunsThrough.run_advance (h : vm.RunsThrough ref i) :
    advance.run.run vm = (.ok (vm.store.array ref)[i]?,
      vm.setTop (.array ref (if i < (vm.store.array ref).size then i + 1 else i))) := by
  have hstore : Exec.store.run.run vm = (.ok vm.store, vm) := rfl
  rw [advance, run_bind, h.run_topIter]
  dsimp only
  rw [run_bind, hstore]
  dsimp only
  rw [RangeIter.next]
  by_cases hi : i < (vm.store.array ref).size
  · rw [Array.getElem?_eq_getElem hi, if_pos hi]; rfl
  · rw [Array.getElem?_eq_none (Nat.le_of_not_lt hi), if_neg hi]; rfl

theorem RunsThrough.setTop_get (h : vm.RunsThrough ref i) (iter : RangeIter) :
    (vm.setTop iter).stack[vm.sp - 1]? = some (.range iter) :=
  Array.getElem?_setIfInBounds_self_of_lt h.lt_size

theorem run_push (vm : Vm) (c : Cell) : (push c).run.run vm = (.error .stackOverflow, vm) ∨
    (push c).run.run vm =
      (.ok (), { vm with stack := vm.stack.setIfInBounds vm.sp c, sp := vm.sp + 1 }) := by
  have hget : (MonadState.get : Exec Vm).run.run vm = (.ok vm, vm) := rfl
  rw [push, run_bind, hget]
  dsimp only
  split
  · exact .inr rfl
  · exact .inl rfl

theorem run_drop_one (vm : Vm) (h : 0 < vm.sp) : (drop 1).run.run vm = (.ok (), { vm with sp := vm.sp - 1 }) := by
  have hget : (MonadState.get : Exec Vm).run.run vm = (.ok vm, vm) := rfl
  rw [drop, run_bind, hget]
  dsimp only
  rw [if_neg (Nat.not_lt.2 h)]
  rfl

theorem step_iterRange (vm : Vm) : vm.step Opcode.iterRange.toByte =
    (perform .iterRange (vm.code.word (vm.ip + 1)) (vm.code.word (vm.ip + 3))).run.run
      { vm with ip := vm.ip + 5 } := by
  simp only [Vm.step, instruction, Opcode.ofByte?_toByte]
  rfl

/-- If there is a next element, `iterRange` goes on to the body, with the iterator at the element after,
unless the stack is full. -/
theorem RunsThrough.step_some (h : vm.RunsThrough ref i) (hi : i < (vm.store.array ref).size) :
    (∃ υ, vm.step Opcode.iterRange.toByte = (.error .stackOverflow, υ)) ∨
      ∃ υ, vm.step Opcode.iterRange.toByte = (.ok (), υ) ∧ υ.ip = vm.ip + 5 ∧ υ.store = vm.store ∧
        υ.stack[vm.sp - 1]? = some (.range (.array ref (i + 1))) := by
  have hjump : RunsThrough { vm with ip := vm.ip + 5 } ref i := ⟨h.sp_pos, h.top⟩
  have htop := h.setTop_get (.array ref (i + 1))
  rw [step_iterRange, perform, run_bind, hjump.run_advance]
  dsimp only
  rw [Array.getElem?_eq_getElem hi, if_pos hi]
  dsimp only
  split
  · have hsp : vm.sp ≠ vm.sp - 1 := by have := h.sp_pos; omega
    rcases run_push _ _ with hr | hr
    · exact .inl ⟨_, hr⟩
    · exact .inr ⟨_, hr, rfl, rfl, (Array.getElem?_setIfInBounds_ne hsp).trans htop⟩
  · exact .inr ⟨_, rfl, rfl, rfl, htop⟩

/-- If there is none, `iterRange` drops the iterator and goes to the place after the loop. -/
theorem RunsThrough.step_none (h : vm.RunsThrough ref i) (hi : (vm.store.array ref).size ≤ i) :
    ∃ stack, vm.step Opcode.iterRange.toByte =
      (.ok (), { vm with stack, sp := vm.sp - 1, ip := vm.code.word (vm.ip + 3) }) := by
  have hjump : RunsThrough { vm with ip := vm.ip + 5 } ref i := ⟨h.sp_pos, h.top⟩
  rw [step_iterRange, perform, run_bind, hjump.run_advance]
  dsimp only
  rw [Array.getElem?_eq_none hi, if_neg (Nat.not_lt.2 hi)]
  dsimp only
  have hdrop := run_drop_one (Vm.setTop { vm with ip := vm.ip + 5 } (.array ref i)) h.sp_pos
  rw [run_bind, hdrop]
  exact ⟨_, rfl⟩

end

/-- From `vm` steps at places between `lo` and `hi` lead to another state. -/
inductive Inside (lo hi : Nat) (vm : Vm) : Vm → Prop where
  | refl : Inside lo hi vm vm
  | step {τ υ : Vm} {byte : UInt8} (h : Inside lo hi vm τ) (hlo : lo < τ.ip) (hhi : τ.ip < hi)
    (hb : τ.fetch? = some byte) (hs : τ.step byte = (.ok (), υ)) : Inside lo hi vm υ

/-- From the head of a loop, `k` rounds of its body lead to the head again. -/
inductive Laps (vm : Vm) : Nat → Vm → Prop where
  | start : Laps vm 0 vm
  | lap {k : Nat} {τ υ τ' : Vm} (h : Laps vm k τ) (hs : τ.step Opcode.iterRange.toByte = (.ok (), υ))
    (hin : υ.ip = vm.ip + 5) (hbody : υ.Inside vm.ip (vm.code.word (vm.ip + 3)) τ')
    (hback : τ'.ip = vm.ip) : Laps vm (k + 1) τ'

end Vm

section
variable {a : Assembly} {p : Program} {vm υ τ : Vm}

/-- At the head of a loop in compiled code there is an iterator, or what it is made of, and the code
before the end of the loop keeps it. -/
theorem OnTrack.head (hp : Holds a p) (h : OnTrack a p vm)
    (hb : vm.fetch? = some Opcode.iterRange.toByte) :
    0 < vm.sp ∧ vm.ip + 5 < vm.code.word (vm.ip + 3) ∧
      ∀ t ∈ (programChunk p).spots 0 0, vm.ip < t.1 → t.1 < vm.code.word (vm.ip + 3) →
        ∃ j, InstrAt a.code t.1 j ∧ j.Keeps vm.sp t := by
  obtain ⟨-, i, hat, -, hi⟩ := h.covered hp hb
  have hop : i.op = .iterRange := Opcode.toByte_inj (Option.some.inj (hat.1.symm.trans hb))
  have hstop : vm.code.word (vm.ip + 3) = i.operands.getD 1 0 :=
    hat.second_operand (by rw [hop]; decide)
  have hneeds := hi.needs
  rw [Instr.needs, hop] at hneeds
  obtain ⟨hstart, -, hloop⟩ := hi.loop hop
  refine ⟨hneeds, hstop ▸ hstart, fun t ht hlo hhi => ?_⟩
  obtain ⟨j, hj, hkeeps⟩ := hloop t ht hlo (hstop ▸ hhi)
  exact ⟨j, hp.placed.instrAt hj, hkeeps⟩

/-- After an instruction that keeps the lowest `l` values they are the same, or the stack is lower. -/
theorem OnTrack.step_keeps (hp : Holds a p) (h : OnTrack a p vm) {l : Nat} {byte : UInt8} {j : Instr}
    (hj : InstrAt a.code vm.ip j) (hkeeps : j.Keeps l (vm.ip, vm.sp)) (hb : vm.fetch? = some byte)
    (hs : vm.step byte = (.ok (), υ)) :
    υ.sp < l ∨ l ≤ vm.sp ∧ ∀ n < l, υ.stack[n]? = vm.stack[n]? := by
  obtain ⟨-, i, hat, hden, hi⟩ := h.covered hp hb
  obtain rfl : i = j := hat.unique (h.code ▸ hj)
  rcases hkeeps with hneeds | hbelow
  · have := step_spec hb hat hneeds hden
    rw [hs] at this
    exact .inr ⟨Nat.le_trans (Nat.le_add_right ..) hneeds, this.1.below⟩
  · have := step_spec (l := 0) hb hat (by rw [Nat.zero_add]; exact hi.needs) hden
    rw [hs] at this
    exact .inl (hbelow _ this.2)

/-- While a machine is inside a loop, the iterator stays as it is until it is dropped. -/
theorem OnTrack.inside (hp : Holds a p) (h : OnTrack a p vm)
    (hb : vm.fetch? = some Opcode.iterRange.toByte) (hυ : OnTrack a p υ)
    (hin : υ.Inside vm.ip (vm.code.word (vm.ip + 3)) τ) :
    OnTrack a p τ ∧ υ.store.SameLengths τ.store ∧
      (τ.sp < vm.sp ∨ ∀ n < vm.sp, τ.stack[n]? = υ.stack[n]?) := by
  induction hin with
  | refl => exact ⟨hυ, .refl _, .inr fun _ _ => rfl⟩
  | @step τ τ' byte _ hlo hhi hb' hs ih =>
    obtain ⟨hτ, hlen, hkept⟩ := ih
    have hτ' := hτ.step hp hb'
    have hlen' := τ.sameLengths_step byte
    rw [hs] at hτ' hlen'
    refine ⟨hτ', hlen.trans hlen', ?_⟩
    obtain ⟨j, hj, hkeeps⟩ := (h.head hp hb).2.2 _ (hτ.covered hp hb').1 hlo hhi
    rcases hτ.step_keeps hp hj hkeeps hb' hs with hlow | ⟨hge, hsame⟩
    · exact .inl hlow
    · rcases hkept with hlow | hkept
      · exact absurd hlow (Nat.not_lt.2 hge)
      · exact .inr fun n hn => (hsame n hn).trans (hkept n hn)

/-- The height of the stack at a place is the same whenever a run is there. -/
theorem OnTrack.sp_unique (hp : Holds a p) (h : OnTrack a p τ) (hvm : OnTrack a p vm) {byte : UInt8}
    (hb : vm.fetch? = some byte) (hip : τ.ip = vm.ip) : τ.sp = vm.sp := by
  have hb' : τ.fetch? = some byte := by rw [Vm.fetch?, h.code, hip, ← hvm.code]; exact hb
  have hspot := (h.covered hp hb').1
  rw [hip] at hspot
  exact ((balanced_programChunk p).segment 0 0 placeholder).height_unique hspot (hvm.covered hp hb).1

/-- The state at the head of a loop over an array after `k` rounds. -/
structure AtHead (a : Assembly) (p : Program) (vm : Vm) (ref k : Nat) (τ : Vm) : Prop where
  onTrack : OnTrack a p τ
  ip : τ.ip = vm.ip
  sp : τ.sp = vm.sp
  runsThrough : τ.RunsThrough ref k
  size : (τ.store.array ref).size = (vm.store.array ref).size
  le : k ≤ (vm.store.array ref).size

variable {ref k : Nat}

/-- Each round starts with the next element and ends at the head with the iterator as the round got it, and
the array as long as before. -/
theorem Vm.Laps.atHead (hp : Holds a p) (hvm : OnTrack a p vm)
    (hb : vm.fetch? = some Opcode.iterRange.toByte) (htop : vm.stack[vm.sp - 1]? = some (.array ref))
    (h : vm.Laps k τ) : AtHead a p vm ref k τ := by
  obtain ⟨hsp, hexit, -⟩ := hvm.head hp hb
  induction h with
  | start => exact ⟨hvm, rfl, rfl, ⟨hsp, .inr ⟨rfl, htop⟩⟩, rfl, Nat.zero_le _⟩
  | @lap k τ υ τ' _ hs hin hbody hback ih =>
    have hcode : τ.code = vm.code := ih.onTrack.code.trans hvm.code.symm
    have hb' : τ.fetch? = some Opcode.iterRange.toByte := by rw [Vm.fetch?, hcode, ih.ip]; exact hb
    have hk : k < (τ.store.array ref).size := by
      refine Nat.lt_of_not_le fun hge => ?_
      obtain ⟨stack, hnone⟩ := ih.runsThrough.step_none hge
      rw [hs] at hnone
      have hip := congrArg Vm.ip (Prod.mk.inj hnone).2
      simp only [hcode, ih.ip] at hip
      omega
    rcases ih.runsThrough.step_some hk with ⟨υ', hr⟩ | ⟨υ', hr, -, hstore, hiter⟩
    · rw [hs] at hr; cases hr
    rw [hs] at hr
    obtain rfl : υ = υ' := (Prod.mk.inj hr).2
    have hυ := ih.onTrack.step hp hb'
    rw [hs] at hυ
    obtain ⟨hτ', hlen, hkept⟩ := hvm.inside hp hb hυ hbody
    have hsp' : τ'.sp = vm.sp := hτ'.sp_unique hp hvm hb hback
    have hsame := (hkept.resolve_left (by omega)) (vm.sp - 1) (by omega)
    refine ⟨hτ', hback, hsp', ⟨by omega, .inl ?_⟩, ?_, ih.size ▸ hk⟩
    · rw [hsp', hsame, ← ih.sp, hiter]
    · rw [hstore] at hlen
      rw [hlen.length ref (Store.lt_of_lt_array hk), ih.size]

/-- After `k` rounds of a loop over an array the next one starts if there are elements left, unless the
stack is full, and else the loop ends. -/
theorem Vm.laps_spec (hc : ({} : Assembly).compile p = .ok a) {fuel : Nat}
    (hrun : (Vm.load a).run fuel = (none, vm)) (hb : vm.fetch? = some Opcode.iterRange.toByte)
    (htop : vm.stack[vm.sp - 1]? = some (.array ref)) (h : vm.Laps k τ) :
    let n := (vm.store.array ref).size
    let next := τ.step Opcode.iterRange.toByte
    k ≤ n ∧
      (k < n → (∃ υ, next = (.error .stackOverflow, υ)) ∨
        ∃ υ, next = (.ok (), υ) ∧ υ.ip = vm.ip + 5) ∧
      (k = n → ∃ υ, next = (.ok (), υ) ∧ υ.ip = vm.code.word (vm.ip + 3) ∧ υ.sp = vm.sp - 1) := by
  have hp := compile_holds hc
  have hvm : OnTrack a p vm := by
    have := (onTrack_load hp).run hp fuel
    rwa [hrun] at this
  have hτ := h.atHead hp hvm hb htop
  refine ⟨hτ.le, fun hk => ?_, fun hk => ?_⟩
  · rcases hτ.runsThrough.step_some (hτ.size ▸ hk) with hfull | ⟨υ, hr, hip, -⟩
    · exact .inl hfull
    · exact .inr ⟨υ, hr, by rw [hip, hτ.ip]⟩
  · obtain ⟨stack, hr⟩ := hτ.runsThrough.step_none (by rw [hτ.size]; exact Nat.le_of_eq hk.symm)
    refine ⟨_, hr, ?_, ?_⟩
    · show τ.code.word (τ.ip + 3) = vm.code.word (vm.ip + 3)
      rw [hτ.onTrack.code, hvm.code, hτ.ip]
    · show τ.sp - 1 = vm.sp - 1
      rw [hτ.sp]

end

end TinyScript.Bytecode
