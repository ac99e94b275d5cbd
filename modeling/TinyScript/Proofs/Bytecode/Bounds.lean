import TinyScript.Proofs.Bytecode.Lengths
import TinyScript.Proofs.Equality

/-!
# Accesses within bounds

The stack machine of `Vm.step` has a default for whatever is out of range. `Checked` is the same machine
with no default: all its accesses to code, constants, stack, slots, elements and characters go through
`read`, `write` and `part`, and one that is out of range traps. (Iterators are the exception: they end
where there is no next element, so they ask for one that may be missing.) From a machine of the right
shape (`Vm.Sound`) both do the same and the shape is kept (`Safe.instruction`), whatever the code and the
values are, so no run of any code makes an access out of range.
-/

namespace TinyScript

namespace Index
variable {x : Float} {i : Int} {len p a b : Nat} {start stop : Option Float} {isBound : Bool}

theorem resolveInt_le (h : resolveInt i len isBound = .ok p) : p ≤ len ∧ (isBound = false → p < len) := by
  unfold resolveInt at h
  extract_lets last at h
  have hlast : last ≤ len ∧ (isBound = false → last < len) := by
    cases isBound
    · exact ⟨by show (len : Int) - 1 ≤ len; omega, fun _ => by show (len : Int) - 1 < len; omega⟩
    · exact ⟨Int.le_refl _, fun h => by cases h⟩
  split at h
  case isTrue => cases h
  case isFalse hrange =>
    split at h
    all_goals
      obtain rfl := Except.ok.inj h
      exact ⟨by omega, fun hb => by have := hlast.2 hb; omega⟩

theorem resolve_le (h : resolve x len isBound = .ok p) : p ≤ len ∧ (isBound = false → p < len) := by
  unfold resolve at h
  split at h
  · exact resolveInt_le h
  · cases h

/-- The place of an element is within the sequence. -/
theorem lt_of_resolve (h : resolve x len false = .ok p) : p < len :=
  (resolve_le h).2 rfl

theorem bound_le (h : bound start len a = .ok p) (ha : a ≤ len) : p ≤ len := by
  unfold bound at h
  split at h
  · exact (resolve_le h).1
  · cases h
    exact ha

/-- A slice lies within the sequence. -/
theorem slice_le (h : slice start stop len = .ok (a, b)) : a ≤ b ∧ b ≤ len := by
  unfold slice at h
  cases ha : bound start len 0 with
  | error p => rw [ha] at h; cases h
  | ok a' =>
    cases hb : bound stop len len with
    | error p => rw [ha, hb] at h; cases h
    | ok b' =>
      rw [ha, hb] at h
      have hle := bound_le hb (Nat.le_refl len)
      by_cases hlt : b' < a'
      · have : (Except.error (.slice a' b') : Except Panic (Nat × Nat)) = .ok (a, b) := (if_pos hlt).symm.trans h
        cases this
      · have : (Except.ok (a', b') : Except Panic (Nat × Nat)) = .ok (a, b) := (if_neg hlt).symm.trans h
        cases this
        exact ⟨Nat.le_of_not_lt hlt, hle⟩

end Index

namespace Store
variable {α : Type} {s : Store α} {ref i : Nat} {value : α}

theorem setElem_eq (h : ref < s.arrays.size) : s.setElem ref i value =
    { s with arrays := s.arrays.setIfInBounds ref ((s.array ref).setIfInBounds i value) } := by
  have harray : s.array ref = s.arrays[ref] := by rw [array, Array.getElem?_eq_getElem h]; rfl
  have harrays : s.arrays.modify ref (·.setIfInBounds i value) =
      s.arrays.setIfInBounds ref ((s.array ref).setIfInBounds i value) := by
    refine Array.ext (by simp) fun j hj hj' => ?_
    rw [Array.getElem_modify, Array.getElem_setIfInBounds, harray]
    split
    case isTrue heq =>
      subst heq
      rfl
    case isFalse => rfl
  rw [setElem, harrays]

end Store

namespace Bytecode

/-- A machine with all slots of its stack and variables, and its stack pointer on the stack or right
after it. -/
structure Vm.Sound (vm : Vm) : Prop where
  stack : vm.stack.size = stackSize
  globals : vm.globals.size = globalsSize
  sp : vm.sp ≤ stackSize

theorem Vm.Sound.top_lt {vm : Vm} (h : vm.Sound) : vm.sp - 1 < vm.stack.size := by
  have hsp := h.sp
  have hstack := h.stack
  simp only [stackSize] at hsp hstack
  omega

/-- Why a checked machine stops. -/
inductive Trap where
  | outOfRange
  | error (e : VmError)

/-- Steps of the checked machine. -/
abbrev Checked := ExceptT Trap (StateM Vm)

namespace Checked
variable {α β : Type}

/-- A step without accesses that could be out of range. -/
def of (m : Exec α) : Checked α :=
  ExceptT.mk fun vm => ((m.run.run vm).1.mapError .error, (m.run.run vm).2)

/-! ### Accesses -/

def read (xs : Array α) (i : Nat) : Checked α :=
  match xs[i]? with
  | some x => pure x
  | none => throw .outOfRange

def write (xs : Array α) (i : Nat) (x : α) : Checked (Array α) :=
  if i < xs.size then pure (xs.setIfInBounds i x) else throw .outOfRange

/-- The elements from `a` on and before `b`. -/
def part (xs : Array α) (a b : Nat) : Checked (Array α) :=
  if a ≤ b ∧ b ≤ xs.size then pure (xs.extract a b) else throw .outOfRange

/-! ### The stack -/

def push (c : Cell) : Checked Unit := do
  let vm ← get
  if vm.sp < vm.stack.size then
    let stack ← write vm.stack vm.sp c
    modify fun vm => { vm with stack, sp := vm.sp + 1 }
  else throw (.error .stackOverflow)

def pop : Checked Cell := do
  of (Exec.drop 1)
  let vm ← get
  read vm.stack vm.sp

def popMany (n : Nat) : Checked (Array Cell) := do
  of (Exec.drop n)
  let vm ← get
  part vm.stack vm.sp (vm.sp + n)

def popNum : Checked Float := do
  match ← pop with
  | .num x => return x
  | c => of (Exec.mistyped "num" c)

def popBool : Checked Bool := do
  match ← pop with
  | .bool b => return b
  | c => of (Exec.mistyped "bool" c)

def popText : Checked String := do
  match ← pop with
  | .str s => return s
  | c => of (Exec.mistyped "string" c)

def popBound : Checked (Option Float) := do
  match ← pop with
  | .none => return none
  | .num x => return some x
  | c => of (Exec.mistyped "num" c)

def onNums (f : Float → Float → Cell) : Checked Unit := do
  let right ← popNum
  let left ← popNum
  push (f left right)

def onTexts (f : String → String → Cell) : Checked Unit := do
  let right ← popText
  let left ← popText
  push (f left right)

/-! ### Arrays and maps -/

def pushArray (elems : Array Cell) : Checked Unit := do
  let ref ← modifyGet fun vm =>
    let (ref, store) := vm.store.newArray elems
    (ref, { vm with store })
  push (.array ref)

def pushMap (pairs : Pairs Cell) : Checked Unit := do
  let ref ← modifyGet fun vm =>
    let (ref, store) := vm.store.newMap pairs
    (ref, { vm with store })
  push (.map ref)

def valueAt (left index : Cell) : Checked Cell :=
  match left, index with
  | .array ref, .num x => do
    let s ← of Exec.store
    read (s.array ref) (← of (Exec.orPanic (s.placeOf ref x)))
  | .str s, .num x => do
    let cs := s.toList.toArray
    let c ← read cs (← of (Exec.orPanic (Index.resolve x cs.size false)))
    return .str (String.ofList [c])
  | .map ref, .str key => do of (Exec.orPanic ((← of Exec.store).fieldOf ref key))
  | left, _ => of (Exec.mistyped "array, string or map" left)

def setAt (container index value : Cell) : Checked Unit :=
  match container, index with
  | .array ref, .num x => do
    let s ← of Exec.store
    let i ← of (Exec.orPanic (s.placeOf ref x))
    let elems ← write (s.array ref) i value
    let arrays ← write s.arrays ref elems
    modify fun vm => { vm with store := { s with arrays } }
  | .map ref, .str key =>
    modify fun vm => { vm with store := vm.store.modifyMap ref (·.insert key value) }
  | container, _ => of (Exec.mistyped "array or map" container)

def pushSlice (left : Cell) (start stop : Option Float) : Checked Unit :=
  match left with
  | .array ref => do
    let elems := (← of Exec.store).array ref
    let (a, b) ← of (Exec.orPanic (Index.slice start stop elems.size))
    pushArray (← part elems a b)
  | .str s => do
    let cs := s.toList.toArray
    let (a, b) ← of (Exec.orPanic (Index.slice start stop cs.size))
    push (.str (String.ofList (← part cs a b).toList))
  | left => of (Exec.mistyped "array or string" left)

/-! ### Loops -/

def topIter : Checked RangeIter := do
  let vm ← get
  if vm.sp = 0 then of (Exec.fault .stackUnderflow)
  match ← read vm.stack (vm.sp - 1) with
  | .range iter => return iter
  | c =>
    match RangeIter.over? vm.store c with
    | some iter => return iter
    | none => of (Exec.mistyped "range" c)

def advance : Checked (Option Cell) := do
  let iter ← topIter
  let (value, iter) := iter.next (← of Exec.store)
  let vm ← get
  let stack ← write vm.stack (vm.sp - 1) (.range iter)
  modify fun vm => { vm with stack }
  return value

/-! ### Instructions -/

def perform (op : Opcode) (operand operand2 : Nat) : Checked Unit :=
  match op with
  | .constant => do
    let vm ← get
    if operand < vm.constants.size then push (← read vm.constants operand)
    else of (Exec.fault (.noConstant operand))
  | .getGlobal => do
    let vm ← get
    if operand < vm.globals.size then push (← read vm.globals operand)
    else of (Exec.fault (.noGlobal operand))
  | .setGlobal => do
    let c ← pop
    let vm ← get
    if operand < vm.globals.size then
      let globals ← write vm.globals operand c
      modify fun vm => { vm with globals }
    else of (Exec.fault (.noGlobal operand))
  | .drop => of (Exec.drop operand)
  | .add => onNums fun x y => .num (x + y)
  | .subtract => onNums fun x y => .num (x - y)
  | .multiply => onNums fun x y => .num (x * y)
  | .divide => onNums fun x y => .num (x / y)
  | .modulo => onNums fun x y => .num (Number.rem x y)
  | .true => push (.bool true)
  | .false => push (.bool false)
  | .none => push .none
  | .not => do push (.bool (!(← popBool)))
  | .minus => do push (.num (-(← popNum)))
  | .equal => do
    let right ← pop
    let left ← pop
    push (.bool (← of (Exec.answered (left.equals (← of Exec.store) right))))
  | .notEqual => do
    let right ← pop
    let left ← pop
    push (.bool (!(← of (Exec.answered (left.equals (← of Exec.store) right)))))
  | .numLess => onNums fun x y => .bool (x < y)
  | .numLessEqual => onNums fun x y => .bool (x ≤ y)
  | .numGreater => onNums fun x y => .bool (x > y)
  | .numGreaterEqual => onNums fun x y => .bool (x ≥ y)
  | .stringLess => onTexts fun s t => .bool (s < t)
  | .stringLessEqual => onTexts fun s t => .bool (!(t < s))
  | .stringGreater => onTexts fun s t => .bool (t < s)
  | .stringGreaterEqual => onTexts fun s t => .bool (!(s < t))
  | .stringConcatenate => onTexts fun s t => .str (s ++ t)
  | .array => do pushArray (← popMany operand)
  | .arrayConcatenate => do
    let right ← pop
    let left ← pop
    match left, right with
    | .array a, .array b =>
      let s ← of Exec.store
      pushArray (s.array a ++ s.array b)
    | left, _ => of (Exec.mistyped "arrays" left)
  | .map => do pushMap (← of (Exec.pairUp .empty (← popMany operand).toList))
  | .index => do
    let index ← pop
    let left ← pop
    push (← valueAt left index)
  | .setIndex => do
    let index ← pop
    let container ← pop
    let value ← pop
    setAt container index value
  | .slice => do
    let stop ← popBound
    let start ← popBound
    let left ← pop
    pushSlice left start stop
  | .jump => of (Exec.jump operand)
  | .jumpNotTruthy => do
    if !(← popBool) then of (Exec.jump operand)
  | .stepRange => do
    let stride := (← popBound).getD 1.0
    let stop ← popNum
    let start := (← popBound).getD 0.0
    if stride == 0.0 then throw (.error (.panic .zeroStep))
    push (.range (.step start stop stride))
  | .iterRange => do
    match ← advance with
    | some c => if operand ≠ 0 then push c
    | none =>
      of (Exec.drop 1)
      of (Exec.jump operand2)

/-- The operand at an offset; zero where the code ends before it. -/
def word (code : Code) (offset : Nat) : Checked Nat := do
  if offset + 2 ≤ code.size then
    let hi ← read code offset
    let lo ← read code (offset + 1)
    return hi.toNat * 256 + lo.toNat
  else return 0

def instruction (byte : UInt8) : Checked Unit := do
  match Opcode.ofByte? byte with
  | none => throw (.error (.unknownOpcode byte))
  | some op =>
    let vm ← get
    let operand ← word vm.code (vm.ip + 1)
    let operand2 ← word vm.code (vm.ip + 3)
    of (Exec.jump (vm.ip + op.size))
    perform op operand operand2

/-- One round of the machine, and whether it goes on afterwards. -/
def round : Checked Bool := do
  let vm ← get
  if vm.ip < vm.code.size then
    instruction (← read vm.code vm.ip)
    return true
  else return false

/-- A read within range gives the element, whatever the default elsewhere is. -/
theorem read_eq {xs : Array α} {i : Nat} (h : i < xs.size) : read xs i = pure xs[i] := by
  rw [read, Array.getElem?_eq_getElem h]

theorem word_eq (code : Code) (offset : Nat) : word code offset = pure (code.word offset) := by
  unfold word
  split
  case isTrue hle =>
    have hword : code.word offset = code[offset].toNat * 256 + code[offset + 1].toNat := by
      rw [Code.word, Array.getElem?_eq_getElem (by omega), Array.getElem?_eq_getElem (by omega)]
    rw [hword, read_eq (by omega), read_eq (by omega), pure_bind, pure_bind]
  case isFalse hgt =>
    have hword : code.word offset = 0 := by
      rw [Code.word, Array.getElem?_eq_none (i := offset + 1) (by omega)]
      split
      case h_1 hlo => cases hlo
      case h_2 => rfl
    rw [hword]

/-! ### Doing the same -/

/-- From `vm` the checked step does what the step does, and the shape of the machine is kept. -/
structure SafeAt (vm : Vm) (g : Checked α) (m : Exec α) : Prop where
  same : g.run.run vm = (of m).run.run vm
  sound : (m.run.run vm).2.Sound

/-- From every machine of the right shape the checked step does what the step does. -/
def Safe (g : Checked α) (m : Exec α) : Prop :=
  ∀ vm, vm.Sound → SafeAt vm g m

theorem run_of (m : Exec α) (vm : Vm) :
    (of m).run.run vm = ((m.run.run vm).1.mapError .error, (m.run.run vm).2) :=
  rfl

namespace SafeAt
variable {vm : Vm} {g : Checked α} {gf : α → Checked β} {m : Exec α} {f : α → Exec β}

theorem bind (hm : SafeAt vm g m)
    (hf : ∀ a vm', m.run.run vm = (.ok a, vm') → vm'.Sound → SafeAt vm' (gf a) (f a)) :
    SafeAt vm (g >>= gf) (m >>= f) := by
  obtain ⟨hsame, hsound⟩ := hm
  rw [run_of] at hsame
  rcases hr : m.run.run vm with ⟨e | a, vm'⟩
  · rw [hr] at hsame hsound
    refine ⟨?_, by rw [Exec.run_bind, hr]; exact hsound⟩
    rw [Exec.run_bind, run_of, Exec.run_bind, hsame, hr]
    rfl
  · rw [hr] at hsame hsound
    obtain ⟨hsame', hsound'⟩ := hf a vm' hr hsound
    refine ⟨?_, by rw [Exec.run_bind, hr]; exact hsound'⟩
    rw [Exec.run_bind, run_of, Exec.run_bind, hsame, hr]
    exact hsame'

theorem bindGet {gf : Vm → Checked β} {f : Vm → Exec β} (h : SafeAt vm (gf vm) (f vm)) :
    SafeAt vm (get >>= gf) (get >>= f) :=
  ⟨h.same, h.sound⟩

theorem bindGet_left {gf : Vm → Checked β} {m : Exec β} (h : SafeAt vm (gf vm) m) : SafeAt vm (get >>= gf) m :=
  ⟨h.same, h.sound⟩

theorem pure (h : vm.Sound) (a : α) : SafeAt vm (Pure.pure a) (Pure.pure a) :=
  ⟨rfl, h⟩

theorem modify {f : Vm → Vm} (h : (f vm).Sound) : SafeAt vm (modify f) (modify f) :=
  ⟨rfl, h⟩

theorem throw (h : vm.Sound) (e : VmError) : SafeAt vm (MonadExcept.throw (.error e) : Checked α) (MonadExcept.throw e) :=
  ⟨rfl, h⟩

theorem read_bind {xs : Array α} {i : Nat} {a : α} {m : Exec β} (hi : i < xs.size) (ha : xs[i] = a)
    (h : SafeAt vm (gf a) m) : SafeAt vm (Checked.read xs i >>= gf) m := by
  rw [read_eq hi, pure_bind, ha]
  exact h

theorem read {xs : Array α} {i : Nat} {a : α} (h : vm.Sound) (hi : i < xs.size) (ha : xs[i] = a) :
    SafeAt vm (Checked.read xs i) (Pure.pure a) := by
  rw [read_eq hi, ha]
  exact .pure h a

theorem write {xs : Array α} {i : Nat} {x : α} {gf : Array α → Checked β} {m : Exec β} (hi : i < xs.size)
    (h : SafeAt vm (gf (xs.setIfInBounds i x)) m) : SafeAt vm (write xs i x >>= gf) m := by
  have hwrite : Checked.write xs i x = Pure.pure (xs.setIfInBounds i x) := if_pos hi
  rw [hwrite, pure_bind]
  exact h

theorem part (h : vm.Sound) {xs : Array α} {a b : Nat} (hab : a ≤ b) (hb : b ≤ xs.size) :
    SafeAt vm (part xs a b) (Pure.pure (xs.extract a b)) := by
  have hpart : Checked.part xs a b = Pure.pure (xs.extract a b) := if_pos ⟨hab, hb⟩
  exact ⟨congrArg (fun g : Checked (Array α) => g.run.run vm) hpart, h⟩

/-- An operation that first finds out where to look, and fails if there is no such place. -/
theorem orPanic_bind {r : Except Panic α} {m : Exec β} {gf : α → Checked β} (h : vm.Sound)
    (herror : ∀ p, r = .error p → m = Exec.orPanic (.error p)) (hok : ∀ a, r = .ok a → SafeAt vm (gf a) m) :
    SafeAt vm (of (Exec.orPanic r) >>= gf) m := by
  cases hr : r with
  | error p =>
    rw [herror p hr]
    exact ⟨rfl, h⟩
  | ok a => exact hok a hr

end SafeAt

namespace Safe
variable {g : Checked α} {gf : α → Checked β} {m : Exec α} {f : α → Exec β}

theorem bind (hm : Safe g m) (hf : ∀ a, Safe (gf a) (f a)) : Safe (g >>= gf) (m >>= f) :=
  fun vm hs => (hm vm hs).bind fun a vm' _ hs' => hf a vm' hs'

theorem pure (a : α) : Safe (Pure.pure a) (Pure.pure a) :=
  fun _ hs => .pure hs a

theorem throw (e : VmError) : Safe (MonadExcept.throw (.error e) : Checked α) (MonadExcept.throw e) :=
  fun _ hs => .throw hs e

/-- A step without accesses is safe if it keeps the shape of the machine. -/
theorem of (h : ∀ vm, vm.Sound → (m.run.run vm).2.Sound) : Safe (of m) m :=
  fun vm hs => ⟨rfl, h vm hs⟩

theorem fault (e : Fault) : Safe (Checked.of (Exec.fault e : Exec α)) (Exec.fault e) :=
  of fun _ hs => hs

theorem mistyped (what : String) (found : Cell) :
    Safe (Checked.of (Exec.mistyped what found : Exec α)) (Exec.mistyped what found) :=
  fault _

theorem orPanic (r : Except Panic α) : Safe (Checked.of (Exec.orPanic r)) (Exec.orPanic r) :=
  of fun _ hs => by cases r <;> exact hs

theorem answered (o : Option α) : Safe (Checked.of (Exec.answered o)) (Exec.answered o) :=
  of fun _ hs => by cases o <;> exact hs

theorem store : Safe (Checked.of Exec.store) Exec.store :=
  of fun _ hs => hs

theorem jump (target : Nat) : Safe (Checked.of (Exec.jump target)) (Exec.jump target) :=
  of fun _ hs => ⟨hs.stack, hs.globals, hs.sp⟩

/-! ### The stack -/

theorem run_drop (n : Nat) (vm : Vm) : (Exec.drop n).run.run vm =
    if vm.sp < n then (.error (.fault .stackUnderflow), vm) else (.ok (), { vm with sp := vm.sp - n }) := by
  unfold Exec.drop
  rw [Exec.run_bind]
  show (if vm.sp < n then _ else _ : Exec Unit).run.run vm = _
  split <;> rfl

theorem drop (n : Nat) : Safe (Checked.of (Exec.drop n)) (Exec.drop n) := by
  refine of fun vm hs => ?_
  rw [run_drop]
  split
  · exact hs
  · exact ⟨hs.stack, hs.globals, Nat.le_trans (Nat.sub_le _ _) hs.sp⟩

/-- After slots are dropped, these slots are still on the stack. -/
theorem dropped {n : Nat} {vm vm' : Vm} {a : Unit} (hs : vm.Sound) (h : (Exec.drop n).run.run vm = (.ok a, vm')) :
    vm'.sp + n ≤ vm'.stack.size := by
  rw [run_drop] at h
  split at h
  · cases h
  · cases h
    show vm.sp - n + n ≤ vm.stack.size
    have hsp := hs.sp
    rw [hs.stack]
    omega

theorem push (c : Cell) : Safe (push c) (Exec.push c) := by
  refine fun vm hs => .bindGet ?_
  split
  case isTrue hlt =>
    refine .write hlt ⟨rfl, ?_, hs.globals, ?_⟩
    · exact Array.size_setIfInBounds.trans hs.stack
    · exact hs.stack ▸ hlt
  case isFalse => exact .throw hs _

theorem pop : Safe pop Exec.pop := by
  refine fun vm hs => (drop 1 vm hs).bind fun _ vm' hdrop hs' => .bindGet ?_
  have hlt : vm'.sp < vm'.stack.size := dropped hs hdrop
  exact .read hs' hlt (Array.getElem_eq_getD _)

theorem popMany (n : Nat) : Safe (popMany n) (Exec.popMany n) :=
  fun vm hs => (drop n vm hs).bind fun _ _ hdrop hs' => .bindGet (.part hs' (Nat.le_add_right _ _) (dropped hs hdrop))

theorem popNum : Safe popNum Exec.popNum :=
  pop.bind fun c => by cases c <;> first | exact pure _ | exact mistyped _ _

theorem popBool : Safe popBool Exec.popBool :=
  pop.bind fun c => by cases c <;> first | exact pure _ | exact mistyped _ _

theorem popText : Safe popText Exec.popText :=
  pop.bind fun c => by cases c <;> first | exact pure _ | exact mistyped _ _

theorem popBound : Safe popBound Exec.popBound :=
  pop.bind fun c => by cases c <;> first | exact pure _ | exact mistyped _ _

theorem onNums (f : Float → Float → Cell) : Safe (onNums f) (Exec.onNums f) :=
  popNum.bind fun _ => popNum.bind fun _ => push _

theorem onTexts (f : String → String → Cell) : Safe (onTexts f) (Exec.onTexts f) :=
  popText.bind fun _ => popText.bind fun _ => push _

/-! ### Arrays and maps -/

theorem pushArray (elems : Array Cell) : Safe (pushArray elems) (Exec.pushArray elems) :=
  fun _ hs => SafeAt.bind ⟨rfl, hs.stack, hs.globals, hs.sp⟩ fun _ _ _ hs' => push _ _ hs'

theorem pushMap (pairs : Pairs Cell) : Safe (pushMap pairs) (Exec.pushMap pairs) :=
  fun _ hs => SafeAt.bind ⟨rfl, hs.stack, hs.globals, hs.sp⟩ fun _ _ _ hs' => push _ _ hs'

theorem pairUp (done : Pairs Cell) (cells : List Cell) :
    Safe (Checked.of (Exec.pairUp done cells)) (Exec.pairUp done cells) := by
  fun_induction Exec.pairUp done cells with
  | case1 done key value rest ih => exact ih
  | case2 => exact mistyped _ _
  | case3 => exact of fun _ hs => hs

theorem elemAt (s : Store Cell) (ref : Nat) (x : Float) :
    Safe (Checked.of (Exec.orPanic (s.placeOf ref x)) >>= read (s.array ref)) (Exec.orPanic (s.elemAt ref x)) := by
  refine fun vm hs => .orPanic_bind hs (fun p hp => ?_) fun i hi => ?_
  · rw [Store.elemAt, hp]
    rfl
  · have hlt : i < (s.array ref).size := Index.lt_of_resolve hi
    have helem : s.elemAt ref x = .ok (s.array ref)[i] := by
      simp only [Store.elemAt, hi, Bind.bind, Except.bind, Array.getElem?_eq_getElem hlt]
    rw [helem]
    exact .read hs hlt rfl

theorem charAt (t : String) (x : Float) :
    Safe (do
        let c ← read t.toList.toArray (← Checked.of (Exec.orPanic (Index.resolve x t.toList.toArray.size false)))
        return Cell.str (String.ofList [c]))
      (Exec.orPanic ((Index.charAt t x).map Cell.str)) := by
  refine fun vm hs => .orPanic_bind hs (fun p hp => ?_) fun i hi => ?_
  · have hchar : Index.charAt t x = .error p := by
      simp only [Index.charAt, Bind.bind, Except.bind, ← List.size_toArray, hp]
    rw [hchar]
    rfl
  · have hlt : i < t.toList.toArray.size := Index.lt_of_resolve hi
    have hchar : Index.charAt t x = .ok (String.ofList [t.toList.toArray[i]]) := by
      simp only [Index.charAt, Bind.bind, Except.bind, ← List.size_toArray, hi, List.drop_eq_getElem_cons hlt]
      rfl
    rw [hchar]
    exact (SafeAt.read hs hlt rfl).bind fun c _ _ hs' => .pure hs' (Cell.str (String.ofList [c]))

theorem valueAt (left index : Cell) : Safe (valueAt left index) (Exec.valueAt left index) := by
  fun_cases Exec.valueAt left index with
  | case1 ref x => exact store.bind fun s => elemAt s _ _
  | case2 t x => exact charAt _ _
  | case3 ref key => exact store.bind fun s => orPanic _
  | case4 index left harray htext hmap =>
    rw [Checked.valueAt.eq_4 _ _ harray htext hmap]
    exact mistyped _ _

theorem setAt (container index value : Cell) : Safe (setAt container index value) (Exec.setAt container index value) := by
  fun_cases Exec.setAt container index value with
  | case1 ref x =>
    refine fun vm hs => (store vm hs).bind fun s vm' hstore hs' => ?_
    cases hstore
    refine .orPanic_bind hs' (fun p hp => ?_) fun i hi => ?_
    · rw [hp]
      rfl
    · have hlt : i < (vm.store.array ref).size := Index.lt_of_resolve hi
      have href := Store.lt_of_lt_array hlt
      rw [hi]
      refine .write hlt (.write href ?_)
      rw [← Store.setElem_eq href]
      exact ⟨rfl, hs.stack, hs.globals, hs.sp⟩
  | case2 ref key => exact fun _ hs => .modify ⟨hs.stack, hs.globals, hs.sp⟩
  | case3 index container harray hmap =>
    rw [Checked.setAt.eq_3 _ _ _ harray hmap]
    exact mistyped _ _

theorem pushSlice (left : Cell) (start stop : Option Float) :
    Safe (pushSlice left start stop) (Exec.pushSlice left start stop) := by
  fun_cases Exec.pushSlice left start stop with
  | case1 ref =>
    refine store.bind fun s vm hs => .orPanic_bind hs (fun p hp => ?_) fun (a, b) hab => ?_
    · rw [Store.sliceOf, hp]
      rfl
    · obtain ⟨hle, hb⟩ := Index.slice_le hab
      have hslice : s.sliceOf ref start stop = .ok ((s.array ref).extract a b) := by
        simp only [Store.sliceOf, Bind.bind, Except.bind, hab]
        rfl
      rw [hslice]
      exact (SafeAt.part hs hle hb).bind fun part vm' _ hs' => pushArray part vm' hs'
  | case2 t =>
    refine fun vm hs => .orPanic_bind hs (fun p hp => ?_) fun (a, b) hab => ?_
    · have hslice : Index.sliceText t start stop = .error p := by
        simp only [Index.sliceText, Bind.bind, Except.bind, ← List.size_toArray, hp]
      rw [hslice]
      rfl
    · obtain ⟨hle, hb⟩ := Index.slice_le hab
      have hslice : Index.sliceText t start stop = .ok (String.ofList (t.toList.toArray.extract a b).toList) := by
        simp only [Index.sliceText, Bind.bind, Except.bind, ← List.size_toArray, hab, Array.toList_extract,
          List.extract_eq_take_drop]
        rfl
      rw [hslice]
      exact (SafeAt.part hs hle hb).bind fun part vm' _ hs' => push (.str (String.ofList part.toList)) vm' hs'
  | case3 left harray htext =>
    rw [Checked.pushSlice.eq_3 _ _ _ harray htext]
    exact mistyped _ _

/-! ### Loops -/

theorem topIter : Safe topIter Exec.topIter := by
  refine fun vm hs => .bindGet ?_
  by_cases hzero : vm.sp = 0
  · rw [if_pos hzero, if_pos hzero]
    exact ⟨rfl, hs⟩
  · have hlt : vm.sp - 1 < vm.stack.size := by
      have := hs.sp
      rw [hs.stack]
      omega
    rw [if_neg hzero, if_neg hzero]
    refine .read_bind hlt (Array.getElem_eq_getD .none) ?_
    generalize vm.stack.getD (vm.sp - 1) .none = c
    cases c with
    | range iter => exact .pure hs iter
    | _ =>
      dsimp only
      generalize RangeIter.over? vm.store _ = iter?
      cases iter? with
      | some iter => exact .pure hs iter
      | none => exact mistyped _ _ vm hs

theorem advance : Safe advance Exec.advance := by
  refine topIter.bind fun iter => store.bind fun s vm hs => .bindGet_left ?_
  have hlt : vm.sp - 1 < vm.stack.size := hs.top_lt
  have hsound : Vm.Sound { vm with stack := vm.stack.setIfInBounds (vm.sp - 1) (.range (iter.next s).2) } :=
    ⟨Array.size_setIfInBounds.trans hs.stack, hs.globals, hs.sp⟩
  refine .write hlt (SafeAt.bind ⟨rfl, hsound⟩ fun _ _ _ hs' => .pure hs' _)

/-! ### Instructions -/

theorem setGlobal (operand : Nat) : Safe (perform .setGlobal operand 0) (Exec.perform .setGlobal operand 0) := by
  refine pop.bind fun c vm hs => .bindGet ?_
  split
  case isTrue hlt => exact .write hlt ⟨rfl, hs.stack, Array.size_setIfInBounds.trans hs.globals, hs.sp⟩
  case isFalse => exact fault _ vm hs

/-- A part of the machine that is looked up by an operand. -/
theorem lookup (cells : Vm → Array Cell) (i : Nat) (f : Fault) :
    Safe (do
        let vm ← get
        if i < (cells vm).size then Checked.push (← read (cells vm) i) else Checked.of (Exec.fault f))
      (do
        match (cells (← get))[i]? with
        | some c => Exec.push c
        | none => Exec.fault f) := by
  refine fun vm hs => .bindGet ?_
  by_cases hlt : i < (cells vm).size
  · rw [if_pos hlt, Array.getElem?_eq_getElem hlt]
    exact .read_bind hlt rfl (push _ vm hs)
  · rw [if_neg hlt, Array.getElem?_eq_none (Nat.le_of_not_lt hlt)]
    exact fault f vm hs

theorem perform (op : Opcode) (m n : Nat) : Safe (perform op m n) (Exec.perform op m n) := by
  cases op with
  | constant => exact lookup (·.constants) m _
  | getGlobal => exact lookup (·.globals) m _
  | setGlobal => exact setGlobal m
  | drop => exact drop m
  | add | subtract | multiply | divide | modulo | numLess | numLessEqual | numGreater
  | numGreaterEqual => exact onNums _
  | stringLess | stringLessEqual | stringGreater | stringGreaterEqual | stringConcatenate =>
    exact onTexts _
  | true | false | none => exact push _
  | not => exact popBool.bind fun _ => push _
  | minus => exact popNum.bind fun _ => push _
  | equal | notEqual =>
    exact pop.bind fun _ => pop.bind fun _ => store.bind fun _ => (answered _).bind fun _ => push _
  | array => exact (popMany m).bind fun _ => pushArray _
  | arrayConcatenate =>
    refine pop.bind fun right => pop.bind fun left => ?_
    cases left with
    | array =>
      cases right with
      | array => exact store.bind fun _ => pushArray _
      | _ => exact mistyped _ _
    | _ => exact mistyped _ _
  | map => exact (popMany m).bind fun _ => (pairUp _ _).bind fun _ => pushMap _
  | index => exact pop.bind fun _ => pop.bind fun _ => (valueAt _ _).bind fun _ => push _
  | setIndex => exact pop.bind fun _ => pop.bind fun _ => pop.bind fun _ => setAt _ _ _
  | slice => exact popBound.bind fun _ => popBound.bind fun _ => pop.bind fun _ => pushSlice _ _ _
  | jump => exact jump m
  | jumpNotTruthy =>
    refine popBool.bind fun b => ?_
    split
    · exact jump m
    · exact pure ()
  | stepRange =>
    refine popBound.bind fun stride => popNum.bind fun stop => popBound.bind fun start => ?_
    split
    · exact bind (throw _) fun _ => push _
    · exact push _
  | iterRange =>
    refine advance.bind fun c => ?_
    cases c with
    | none => exact (drop 1).bind fun _ => jump n
    | some c =>
      dsimp only
      split
      · exact push c
      · exact pure ()

/-- Whatever a byte and its operands are, the instruction makes no access out of range. -/
theorem instruction (byte : UInt8) : Safe (instruction byte) (Exec.instruction byte) := by
  unfold Checked.instruction Exec.instruction
  cases Opcode.ofByte? byte with
  | none => exact throw _
  | some op =>
    refine fun vm hs => .bindGet ?_
    rw [word_eq, pure_bind, word_eq, pure_bind]
    exact (jump _ vm hs).bind fun _ vm' _ hs' => perform op _ _ vm' hs'

end Safe

/-! ### Rounds and runs -/

section
variable {vm : Vm}

end

/-- A step does not go on for ever. -/
def Ends (α : Type) (m : Exec α) : Prop :=
  ∀ vm : Vm, (m.run.run vm).1 ≠ .error .endless

namespace Ends

theorem bind {m : Exec α} {f : α → Exec β} (hm : Ends α m) (hf : ∀ a, Ends β (f a)) : Ends β (m >>= f) := by
  intro vm
  have hm := hm vm
  rw [Exec.run_bind]
  rcases hr : m.run.run vm with ⟨e | a, vm'⟩
  · rw [hr] at hm
    exact fun he => hm (congrArg _ (Except.error.inj he))
  · exact hf a vm'

theorem stepwise : Exec.Stepwise Ends where
  pure _ _ h := by cases h
  bind := bind
  throw _ he _ h := he (Except.error.inj h)
  get _ h := by cases h
  modify _ _ _ h := by cases h
  newArray _ _ h := by cases h
  newMap _ _ h := by cases h
  setElem _ _ _ _ h := by cases h
  setField _ _ _ _ h := by cases h

end Ends

section
variable {vm : Vm}

theorem run_pop (vm : Vm) : Exec.pop.run.run vm =
    if vm.sp = 0 then (.error (.fault .stackUnderflow), vm)
    else (.ok (vm.stack.getD (vm.sp - 1) .none), { vm with sp := vm.sp - 1 }) := by
  unfold Exec.pop
  rw [Exec.run_bind, Safe.run_drop]
  by_cases hsp : vm.sp = 0
  · rw [if_pos (Nat.lt_one_iff.2 hsp), if_pos hsp]
  · rw [if_neg (mt Nat.lt_one_iff.1 hsp), if_neg hsp]
    rfl

end

end Checked
end Bytecode
end TinyScript
