import TinyScript.Proofs.Simulation.Stacks

/-!
# Instructions on configurations

`Leads a s r` says that the machine with the code `a` gets from configuration `s` to the configuration
or panic `r` after some instructions, unless the stack is full on the way. There is one lemma for each
instruction, at a place of the code that holds it.
-/

namespace TinyScript.Bytecode
open Exec

theorem Vm.run_one {vm : Vm} {byte : UInt8} (hb : vm.fetch? = some byte)
    (fuel : Nat) : vm.run (fuel + 1) = match vm.step byte with
      | (.ok (), vm) => vm.run fuel
      | (.error e, vm) => (some (.error e), vm) := by
  rcases hstep : vm.step byte with ⟨e | ⟨⟩, vm'⟩ <;> simp only [Vm.run, hb, hstep]

/-- From configuration `s` the machine gets to a configuration or to a panic, unless the stack is full
on the way. -/
def Leads (a : Assembly) (s : Conf) (r : Except Panic Conf) : Prop :=
  ∀ vm : Vm, vm.In a s → ∃ n, (∃ vm', vm.run n = (some (.error .stackOverflow), vm')) ∨
    match r with
    | .ok s' => ∃ vm' : Vm, vm'.In a s' ∧ ∀ fuel, vm.run (n + fuel) = vm'.run fuel
    | .error p => ∃ vm', vm.run n = (some (.error (.panic p)), vm')

namespace Leads
variable {a : Assembly} {s s' : Conf} {r : Except Panic Conf}

theorem refl (s : Conf) : Leads a s (.ok s) :=
  fun vm hvm => ⟨0, .inr ⟨vm, hvm, fun fuel => by rw [Nat.zero_add]⟩⟩

theorem trans (h : Leads a s (.ok s')) (h' : Leads a s' r) : Leads a s r := by
  intro vm hvm
  obtain ⟨n, hfull | ⟨vm', hvm', hrun⟩⟩ := h vm hvm
  · exact ⟨n, .inl hfull⟩
  · obtain ⟨n', hend⟩ := h' vm' hvm'
    refine ⟨n + n', ?_⟩
    rw [hrun]
    refine hend.imp_right fun hend => ?_
    cases r with
    | ok s'' =>
      obtain ⟨vm'', hvm'', hrun'⟩ := hend
      exact ⟨vm'', hvm'', fun fuel => by rw [Nat.add_assoc, hrun, hrun']⟩
    | error p => exact hend

/-- One instruction with its operands. -/
theorem step {i : Instr} {r : Except Panic (Unit × Conf)} (hi : InstrAt a.code s.ip i)
    (h : ∀ m n, (0 < i.op.arity → m = i.operands.headD 0) → (1 < i.op.arity → n = i.operands.getD 1 0) →
      Acts a (perform i.op m n) { s with ip := s.ip + i.size } r) :
    Leads a s (r.map Prod.snd) := by
  intro vm hvm
  have hi' : InstrAt vm.code vm.ip i := by rw [hvm.code, hvm.ip]; exact hi
  have hb : vm.fetch? = some i.op.toByte := hi'.1
  have hgives := h _ _ hi'.first_operand hi'.second_operand { vm with ip := vm.ip + i.size }
    ⟨hvm.code, hvm.constants, congrArg (· + i.size) hvm.ip, hvm.live, hvm.sp_le, hvm.globals, hvm.store⟩
  refine ⟨1, ?_⟩
  rw [← step_eq hb hi'] at hgives
  have hrun := fun fuel => Vm.run_one hb fuel
  rcases hstep : vm.step i.op.toByte with ⟨e | ⟨⟩, vm'⟩ <;> simp only [hstep] at hgives hrun
  · cases r with
    | ok t =>
      cases e with
      | stackOverflow => exact .inl ⟨vm', hrun 0⟩
      | _ => cases hgives
    | error p =>
      cases e with
      | stackOverflow => exact .inl ⟨vm', hrun 0⟩
      | panic q => exact .inr ⟨vm', hgives ▸ hrun 0⟩
      | _ => cases hgives
  · cases r with
    | ok t => exact .inr ⟨vm', hgives.2, fun fuel => by rw [Nat.add_comm, hrun]⟩
    | error p => cases hgives

section
variable {p slot k n m : Nat} {stack : List Cell} {g : Array Cell} {st : Store Cell} {c d : Cell}
  {op : Opcode}

/-- An operation without operands, which goes on to the next instruction. -/
theorem plain {r : Except Panic (Unit × Conf)} (hi : InstrAt a.code p ⟨op, []⟩)
    (h : ∀ m n, Acts a (perform op m n) ⟨p + op.size, stack, g, st⟩ r) :
    Leads a ⟨p, stack, g, st⟩ (r.map Prod.snd) :=
  step hi fun m n _ _ => h m n

/-- An operation without operands, which goes on or panics as `t` says. -/
theorem plainMap {α : Type} {t : Except Panic α} {f : α → Conf} (hi : InstrAt a.code p ⟨op, []⟩)
    (h : ∀ m n, Acts a (perform op m n) ⟨p + op.size, stack, g, st⟩ (t.map fun x => ((), f x))) :
    Leads a ⟨p, stack, g, st⟩ (t.map f) := by
  have hlead := plain hi h
  cases t <;> exact hlead

theorem constant (hi : InstrAt a.code p ⟨.constant, [k]⟩) (hk : a.constants[k]? = some c) :
    Leads a ⟨p, stack, g, st⟩ (.ok ⟨p + 3, c :: stack, g, st⟩) := by
  refine step (r := .ok ((), _)) hi fun m n hm _ => ?_
  obtain rfl : k = m := (hm Nat.one_pos).symm
  refine .bindGet fun vm hvm => ?_
  rw [hvm.constants, hk]
  exact .push c

theorem getGlobal (hi : InstrAt a.code p ⟨.getGlobal, [slot]⟩) (hslot : g[slot]? = some c) :
    Leads a ⟨p, stack, g, st⟩ (.ok ⟨p + 3, c :: stack, g, st⟩) := by
  refine step (r := .ok ((), _)) hi fun m n hm _ => ?_
  obtain rfl : slot = m := (hm Nat.one_pos).symm
  refine .bindGet fun vm hvm => ?_
  rw [hvm.globals]
  dsimp only
  rw [hslot]
  exact .push c

theorem setGlobal (hi : InstrAt a.code p ⟨.setGlobal, [slot]⟩) (hslot : slot < g.size) :
    Leads a ⟨p, c :: stack, g, st⟩ (.ok ⟨p + 3, stack, g.setIfInBounds slot c, st⟩) := by
  refine step (r := .ok ((), _)) hi fun m n hm _ => ?_
  obtain rfl : slot = m := (hm Nat.one_pos).symm
  refine .bind (.pop rfl) (.bindGet fun vm hvm => ?_)
  rw [hvm.globals, if_pos hslot]
  exact fun vm hvm => ⟨rfl, hvm.code, hvm.constants, hvm.ip, hvm.live, hvm.sp_le,
    congrArg (·.setIfInBounds slot c) hvm.globals, hvm.store⟩

theorem drop (hi : InstrAt a.code p ⟨.drop, [n]⟩) (hn : n ≤ stack.length) :
    Leads a ⟨p, stack, g, st⟩ (.ok ⟨p + 3, stack.drop n, g, st⟩) := by
  refine step (r := .ok ((), _)) hi fun m _ hm _ => ?_
  obtain rfl : n = m := (hm Nat.one_pos).symm
  exact .drop hn

theorem jump (hi : InstrAt a.code p ⟨.jump, [n]⟩) :
    Leads a ⟨p, stack, g, st⟩ (.ok ⟨n, stack, g, st⟩) := by
  refine step (r := .ok ((), _)) hi fun m _ hm _ => ?_
  obtain rfl : n = m := (hm Nat.one_pos).symm
  exact .jump n

theorem jumpNotTruthy {b : Bool} (hi : InstrAt a.code p ⟨.jumpNotTruthy, [n]⟩) :
    Leads a ⟨p, .bool b :: stack, g, st⟩ (.ok ⟨if b then p + 3 else n, stack, g, st⟩) := by
  refine step (r := .ok ((), _)) hi fun m _ hm _ => ?_
  obtain rfl : n = m := (hm Nat.one_pos).symm
  refine .bind (.popBool rfl) ?_
  cases b with
  | true => exact .pure ()
  | false => exact .jump n

/-! ### Values -/

theorem pushed (hi : InstrAt a.code p ⟨op, []⟩) (hop : ∀ m n, perform op m n = push c) :
    Leads a ⟨p, stack, g, st⟩ (.ok ⟨p + op.size, c :: stack, g, st⟩) :=
  plain (r := .ok ((), _)) hi fun m n => hop m n ▸ .push c

theorem nums {f : Float → Float → Cell} {x y : Float} (hi : InstrAt a.code p ⟨op, []⟩)
    (hop : ∀ m n, perform op m n = onNums f) :
    Leads a ⟨p, .num y :: .num x :: stack, g, st⟩ (.ok ⟨p + op.size, f x y :: stack, g, st⟩) :=
  plain (r := .ok ((), _)) hi fun m n => hop m n ▸ .onNums rfl

theorem texts {f : String → String → Cell} {t u : String} (hi : InstrAt a.code p ⟨op, []⟩)
    (hop : ∀ m n, perform op m n = onTexts f) :
    Leads a ⟨p, .str u :: .str t :: stack, g, st⟩ (.ok ⟨p + op.size, f t u :: stack, g, st⟩) :=
  plain (r := .ok ((), _)) hi fun m n => hop m n ▸ .onTexts rfl

theorem not {b : Bool} (hi : InstrAt a.code p ⟨.not, []⟩) :
    Leads a ⟨p, .bool b :: stack, g, st⟩ (.ok ⟨p + 1, .bool (!b) :: stack, g, st⟩) :=
  plain (r := .ok ((), _)) hi fun _ _ => .bind (.popBool rfl) (.push _)

theorem minus {x : Float} (hi : InstrAt a.code p ⟨.minus, []⟩) :
    Leads a ⟨p, .num x :: stack, g, st⟩ (.ok ⟨p + 1, .num (-x) :: stack, g, st⟩) :=
  plain (r := .ok ((), _)) hi fun _ _ => .bind (.popNum rfl) (.push _)

theorem equal {b : Bool} (hi : InstrAt a.code p ⟨.equal, []⟩) (hb : c.equals st d = some b) :
    Leads a ⟨p, d :: c :: stack, g, st⟩ (.ok ⟨p + 1, .bool b :: stack, g, st⟩) := by
  refine plain (r := .ok ((), _)) hi fun _ _ => .bind (.pop rfl) (.bind (.pop rfl) (.bind .store ?_))
  rw [hb]
  exact .bind (.answered b) (.push _)

theorem notEqual {b : Bool} (hi : InstrAt a.code p ⟨.notEqual, []⟩) (hb : c.equals st d = some b) :
    Leads a ⟨p, d :: c :: stack, g, st⟩ (.ok ⟨p + 1, .bool (!b) :: stack, g, st⟩) := by
  refine plain (r := .ok ((), _)) hi fun _ _ => .bind (.pop rfl) (.bind (.pop rfl) (.bind .store ?_))
  rw [hb]
  exact .bind (.answered b) (.push _)

/-! ### Arrays and maps -/

/-- The elements of a literal are on the stack, the last one on top. -/
theorem array {cs : List Cell} (hi : InstrAt a.code p ⟨.array, [cs.length]⟩) :
    Leads a ⟨p, cs.reverse ++ stack, g, st⟩
      (.ok ⟨p + 3, .array (st.newArray cs.toArray).1 :: stack, g, (st.newArray cs.toArray).2⟩) := by
  refine step (r := .ok ((), _)) hi fun m n hm _ => ?_
  obtain rfl : cs.length = m := (hm Nat.one_pos).symm
  have hpop := Acts.popMany (a := a) (s := ⟨p + 3, cs.reverse ++ stack, g, st⟩) (n := cs.length)
    (by simp)
  rw [List.take_left' (List.length_reverse ..), List.drop_left' (List.length_reverse ..),
    List.reverse_reverse] at hpop
  exact .bind hpop (.pushArray _)

/-- The keys and values of a literal are on the stack by turns, the last value on top. -/
theorem map {ps : List (String × Cell)} (hi : InstrAt a.code p ⟨.map, [ps.length * 2]⟩) :
    Leads a ⟨p, (ps.flatMap fun (key, c) => [.str key, c]).reverse ++ stack, g, st⟩
      (.ok ⟨p + 3, .map (st.newMap (.ofList ps)).1 :: stack, g, (st.newMap (.ofList ps)).2⟩) := by
  refine step (r := .ok ((), _)) hi fun m n hm _ => ?_
  obtain rfl : ps.length * 2 = m := (hm Nat.one_pos).symm
  have hlen : (ps.flatMap fun (key, c) => [Cell.str key, c]).length = ps.length * 2 := by
    simp [List.length_flatMap]
  have hpop := Acts.popMany (a := a) (n := ps.length * 2)
    (s := ⟨p + 3, (ps.flatMap fun (key, c) => [.str key, c]).reverse ++ stack, g, st⟩)
    (by simp [hlen])
  rw [List.take_left' (by rw [List.length_reverse, hlen]), List.drop_left' (by rw [List.length_reverse, hlen]),
    List.reverse_reverse] at hpop
  exact .bind hpop (.bind (.pairUp _ _) (.pushMap _))

theorem arrayConcatenate {l r : Nat} (hi : InstrAt a.code p ⟨.arrayConcatenate, []⟩) :
    Leads a ⟨p, .array r :: .array l :: stack, g, st⟩
      (.ok ⟨p + 1, .array (st.newArray (st.array l ++ st.array r)).1 :: stack, g,
        (st.newArray (st.array l ++ st.array r)).2⟩) :=
  plain (r := .ok ((), _)) hi fun _ _ =>
    .bind (.pop rfl) (.bind (.pop rfl) (.bind .store (.pushArray _)))

/-- The element, character or field at an index. -/
theorem index {r : Except Panic Cell} (hi : InstrAt a.code p ⟨.index, []⟩)
    (h : Acts a (valueAt c d) ⟨p + 1, stack, g, st⟩ (r.map (·, ⟨p + 1, stack, g, st⟩))) :
    Leads a ⟨p, d :: c :: stack, g, st⟩ (r.map (⟨p + 1, · :: stack, g, st⟩)) := by
  refine plainMap hi fun m n => .bind (.pop rfl) (.bind (.pop rfl) ?_)
  cases r with
  | ok v => exact .bind h (.push v)
  | error e => exact .bind_panic h

theorem setElem {ref : Nat} {x : Float} (hi : InstrAt a.code p ⟨.setIndex, []⟩) :
    Leads a ⟨p, .num x :: .array ref :: c :: stack, g, st⟩
      ((st.placeOf ref x).map fun i => ⟨p + 1, stack, g, st.setElem ref i c⟩) :=
  plainMap hi fun _ _ => .bind (.pop rfl) (.bind (.pop rfl) (.bind (.pop rfl) (.setElem ref x c)))

theorem setField {ref : Nat} {key : String} (hi : InstrAt a.code p ⟨.setIndex, []⟩) :
    Leads a ⟨p, .str key :: .map ref :: c :: stack, g, st⟩
      (.ok ⟨p + 1, stack, g, st.modifyMap ref (·.insert key c)⟩) :=
  plain (r := .ok ((), _)) hi fun _ _ =>
    .bind (.pop rfl) (.bind (.pop rfl) (.bind (.pop rfl) (.setField ref key c)))

theorem sliceArray {ref : Nat} {x y : Option Float} (hi : InstrAt a.code p ⟨.slice, []⟩) :
    Leads a ⟨p, Acts.bound y :: Acts.bound x :: .array ref :: stack, g, st⟩
      ((st.sliceOf ref x y).map fun elems =>
        ⟨p + 1, .array (st.newArray elems).1 :: stack, g, (st.newArray elems).2⟩) :=
  plainMap hi fun _ _ =>
    .bind (.popBound rfl) (.bind (.popBound rfl) (.bind (.pop rfl) (.sliceArray ref x y)))

theorem sliceText {u : String} {x y : Option Float} (hi : InstrAt a.code p ⟨.slice, []⟩) :
    Leads a ⟨p, Acts.bound y :: Acts.bound x :: .str u :: stack, g, st⟩
      ((Index.sliceText u x y).map fun t => ⟨p + 1, .str t :: stack, g, st⟩) :=
  plainMap hi fun _ _ =>
    .bind (.popBound rfl) (.bind (.popBound rfl) (.bind (.pop rfl) (.sliceText u x y)))

/-! ### Loops -/

theorem stepRange {start stride : Option Float} {stop : Float} (hi : InstrAt a.code p ⟨.stepRange, []⟩) :
    Leads a ⟨p, Acts.bound stride :: .num stop :: Acts.bound start :: stack, g, st⟩
      (if stride.getD 1.0 == 0.0 then .error .zeroStep
      else .ok ⟨p + 1, .range (.step (start.getD 0.0) stop (stride.getD 1.0)) :: stack, g, st⟩) := by
  have hperform : ∀ m n, Acts a (perform .stepRange m n)
      ⟨p + 1, Acts.bound stride :: .num stop :: Acts.bound start :: stack, g, st⟩
      (if stride.getD 1.0 == 0.0 then .error .zeroStep else .ok ((),
        ⟨p + 1, .range (.step (start.getD 0.0) stop (stride.getD 1.0)) :: stack, g, st⟩)) := by
    intro m n
    refine .bind (.popBound rfl) (.bind (.popNum rfl) (.bind (.popBound rfl) ?_))
    split
    · exact .bind_panic (.panic _)
    · exact .push _
  have hlead := plain hi hperform
  split at hlead
  · next h => rwa [if_pos h]
  · next h => rwa [if_neg h]

/-- The next value of an iterator is pushed if it is bound to a variable. -/
theorem iterRange_some {iter : RangeIter} {v : Cell} (hi : InstrAt a.code p ⟨.iterRange, [m, n]⟩)
    (hc : c.iter? st = some iter) (hnext : (iter.next st).1 = some v) :
    Leads a ⟨p, c :: stack, g, st⟩
      (.ok ⟨p + 5, (if m ≠ 0 then [v] else []) ++ .range (iter.next st).2 :: stack, g, st⟩) := by
  refine step (r := .ok ((), _)) hi fun i j hm _ => ?_
  obtain rfl : m = i := (hm Nat.two_pos).symm
  refine .bind (.advance rfl hc) ?_
  rw [hnext]
  show Acts a (if m ≠ 0 then push v else pure ()) _ _
  split
  · exact .push v
  · exact .pure ()

/-- At its end an iterator is dropped. -/
theorem iterRange_none {iter : RangeIter} (hi : InstrAt a.code p ⟨.iterRange, [m, n]⟩)
    (hc : c.iter? st = some iter) (hnext : (iter.next st).1 = none) :
    Leads a ⟨p, c :: stack, g, st⟩ (.ok ⟨n, stack, g, st⟩) := by
  refine step (r := .ok ((), _)) hi fun i j _ hn => ?_
  obtain rfl : n = j := (hn Nat.one_lt_two).symm
  refine .bind (.advance rfl hc) ?_
  rw [hnext]
  exact .bind (.drop (Nat.le_add_left ..)) (.jump _)

end

end Leads

end TinyScript.Bytecode
