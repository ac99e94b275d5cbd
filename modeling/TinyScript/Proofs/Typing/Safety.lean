import TinyScript.Proofs.Eval.Runs
import TinyScript.Proofs.Typing.Values

/-!
# Safe evaluations

An evaluation is safe (`Safe`) if it takes machines that keep to their types to machines that keep to
them again, with more storage perhaps, and does not fail because a value is of the wrong type. It may
fail for other reasons, and then the machine keeps to its types as well, up to the variables of the
innermost block.
-/

namespace TinyScript

/-- Whether the failure says that a value is not of the type that the analysis gave it. -/
def Internal.isMistyped : Internal → Bool
  | .conditionType _ | .notNumber _ | .notIndexable _ _ | .notSliceable _ | .noFields _ | .notAny _
  | .missingArgument _ | .argumentType _ _ | .notIterable _ | .unaryOperand _ _
  | .binaryOperand _ _ | .targetNotIndexable _ | .targetNoFields _ | .notTarget _ => true
  | .unknownFunction _ | .unboundVariable _ | .noHandler _ | .missingParameters _ _ _ => false

def Cause.isMistyped : Cause → Bool
  | .internal i => i.isMistyped
  | _ => false

def Interrupt.isMistyped : Interrupt → Bool
  | .failed f => f.cause.isMistyped
  | .outOfFuel => false

/-- A machine keeps to its types. -/
structure MachineTyped (Θ : StoreTy) (G : String → Option Ty) (L : List Scoping) (m : Machine) :
    Prop where
  store : StoreTyped Θ m.world.store
  frames : FramesTyped Θ m.frames G L

/-- A body of its own starts with the globals only. -/
theorem MachineTyped.enterBody {Θ : StoreTy} {G : String → Option Ty} {L : List Scoping} {m : Machine}
    (h : MachineTyped Θ G L m) : MachineTyped Θ G [[]] { m with frames := m.frames.enterBody } :=
  ⟨h.store, h.frames.globals, .cons .nil .nil⟩

/-- The open blocks are the same but for the variables of the innermost one. -/
structure SameBelow (L L' : List Scoping) : Prop where
  tail : L'.tail = L.tail
  length : L'.length = L.length

theorem SameBelow.refl (L : List Scoping) : SameBelow L L := ⟨rfl, rfl⟩

theorem SameBelow.trans {L L' L'' : List Scoping} (h : SameBelow L L') (h' : SameBelow L' L'') :
    SameBelow L L'' :=
  ⟨h'.tail.trans h.tail, h'.length.trans h.length⟩

section
variable {α β : Type} {Θ Θ' : StoreTy} {G : String → Option Ty} {L L' L'' : List Scoping}

/-- An evaluation is safe from `Θ` and blocks `L` on: it gets to blocks in `P` with a result in `Q`,
or fails for a reason other than types. -/
def SafeIn (Θ : StoreTy) (G : String → Option Ty) (L : List Scoping) (P : List Scoping → Prop)
    (m : Eval α) (Q : StoreTy → α → Prop) : Prop :=
  ∀ σ, MachineTyped Θ G L σ → match m.run.run σ with
    | (.ok a, σ') => ∃ Θ' L', Θ ≤ Θ' ∧ P L' ∧ MachineTyped Θ' G L' σ' ∧ Q Θ' a
    | (.error i, σ') => i.isMistyped = false ∧
        ∃ Θ' L', Θ ≤ Θ' ∧ SameBelow L L' ∧ MachineTyped Θ' G L' σ'

/-- A safe evaluation that gets to blocks `L'`. -/
abbrev SafeTo (Θ : StoreTy) (G : String → Option Ty) (L L' : List Scoping) (m : Eval α)
    (Q : StoreTy → α → Prop) : Prop :=
  SafeIn Θ G L (· = L') m Q

/-- A safe evaluation that declares nothing. -/
abbrev Safe (Θ : StoreTy) (G : String → Option Ty) (L : List Scoping) (m : Eval α)
    (Q : StoreTy → α → Prop) : Prop :=
  SafeTo Θ G L L m Q

namespace SafeIn
variable {P P' : List Scoping → Prop} {Q : StoreTy → α → Prop} {R : StoreTy → β → Prop} {m : Eval α}

theorem bind {f : α → Eval β} (hm : SafeIn Θ G L P m Q) (hP : ∀ K, P K → SameBelow L K)
    (hf : ∀ Θ' K a, Θ ≤ Θ' → P K → Q Θ' a → SafeIn Θ' G K P' (f a) R) :
    SafeIn Θ G L P' (m >>= f) R := by
  intro σ hσ
  rw [Eval.run_bind]
  have := hm σ hσ
  rcases hr : m.run.run σ with ⟨_ | a, σ'⟩ <;> rw [hr] at this
  · exact this
  · obtain ⟨Θ₁, K, hle, hK, hσ', hQ⟩ := this
    have := hf Θ₁ K a hle hK hQ σ' hσ'
    simp only
    rcases hr' : (f a).run.run σ' with ⟨_ | b, σ''⟩ <;> rw [hr'] at this
    · obtain ⟨hi, Θ₂, L₂, hle', hL', hσ''⟩ := this
      exact ⟨hi, Θ₂, L₂, StoreTy.le_trans hle hle', (hP K hK).trans hL', hσ''⟩
    · obtain ⟨Θ₂, K', hle', hK', hσ'', hR⟩ := this
      exact ⟨Θ₂, K', StoreTy.le_trans hle hle', hK', hσ'', hR⟩

/-- Like `bind`, after an evaluation that declares nothing. -/
theorem andThen {f : α → Eval β} (hm : Safe Θ G L m Q)
    (hf : ∀ Θ' a, Θ ≤ Θ' → Q Θ' a → SafeIn Θ' G L P (f a) R) : SafeIn Θ G L P (m >>= f) R :=
  hm.bind (fun _ hK => hK ▸ .refl L) fun Θ' _ a hle hK hQ => hK ▸ hf Θ' a hle hQ

theorem pureIn {a : α} (hP : P L) (hQ : Q Θ a) : SafeIn Θ G L P (Pure.pure a) Q :=
  fun _ hσ => ⟨Θ, L, StoreTy.le_refl Θ, hP, hσ, hQ⟩

theorem pure {a : α} (hQ : Q Θ a) : Safe Θ G L (Pure.pure a) Q :=
  pureIn rfl hQ

theorem throw {i : Interrupt} (hi : i.isMistyped = false) :
    SafeIn Θ G L P (MonadExcept.throw i : Eval α) Q :=
  fun _ hσ => ⟨hi, Θ, L, StoreTy.le_refl Θ, .refl L, hσ⟩

theorem fail {c : Cause} (hc : c.isMistyped = false) : SafeIn Θ G L P (Eval.fail c) Q :=
  throw hc

theorem fail_bind {c : Cause} {f : α → Eval β} (hc : c.isMistyped = false) :
    SafeIn Θ G L P (Eval.fail c >>= f) R :=
  fun _ hσ => ⟨hc, Θ, L, StoreTy.le_refl Θ, .refl L, hσ⟩

theorem mono {Q' : StoreTy → α → Prop} (hm : SafeIn Θ G L P m Q) (hP : ∀ K, P K → P' K)
    (hQ : ∀ Θ' a, Θ ≤ Θ' → Q Θ' a → Q' Θ' a) : SafeIn Θ G L P' m Q' := by
  intro σ hσ
  have := hm σ hσ
  rcases hr : m.run.run σ with ⟨_ | a, σ'⟩ <;> rw [hr] at this
  · exact this
  · obtain ⟨Θ', K, hle, hK, hσ', h⟩ := this
    exact ⟨Θ', K, hle, hP K hK, hσ', hQ Θ' a hle h⟩

/-- A weaker claim about the result. -/
theorem weaken {Q' : StoreTy → α → Prop} (hm : SafeIn Θ G L P m Q)
    (hQ : ∀ Θ' a, Θ ≤ Θ' → Q Θ' a → Q' Θ' a) : SafeIn Θ G L P m Q' :=
  hm.mono (fun _ => id) hQ

theorem get : Safe Θ G L get fun _ σ => MachineTyped Θ G L σ :=
  fun _ hσ => ⟨Θ, L, StoreTy.le_refl Θ, rfl, hσ, hσ⟩

theorem store : Safe Θ G L Eval.store fun Θ' s => Θ' = Θ ∧ StoreTyped Θ s :=
  fun _ hσ => ⟨Θ, L, StoreTy.le_refl Θ, rfl, hσ, rfl, hσ.store⟩

theorem modify {f : Machine → Machine} (hf : ∀ σ, MachineTyped Θ G L σ → MachineTyped Θ G L' (f σ)) :
    SafeTo Θ G L L' (modify f) fun _ _ => True :=
  fun σ hσ => ⟨Θ, L', StoreTy.le_refl Θ, rfl, hf σ hσ, trivial⟩

theorem modifyStore {f : Store Value → Store Value}
    (hf : ∀ s, StoreTyped Θ s → StoreTyped Θ (f s)) :
    Safe Θ G L (Eval.modifyStore f) fun _ _ => True :=
  modify fun _ hσ => ⟨hf _ hσ.store, hσ.frames⟩

theorem modifyFrames {f : Frames → Frames}
    (hf : ∀ fs, FramesTyped Θ fs G L → FramesTyped Θ (f fs) G L') :
    SafeTo Θ G L L' (Eval.modifyFrames f) fun _ _ => True :=
  modify fun _ hσ => ⟨hσ.store, hf _ hσ.frames⟩

/-- A step that leaves storage and variables alone. -/
theorem modifyGet {f : Machine → α × Machine}
    (hf : ∀ σ, (f σ).2.world.store = σ.world.store ∧ (f σ).2.frames = σ.frames) :
    Safe Θ G L (modifyGet f) fun _ _ => True := by
  intro σ hσ
  obtain ⟨h1, h2⟩ := hf σ
  exact ⟨Θ, L, StoreTy.le_refl Θ, rfl, ⟨by rw [h1]; exact hσ.store, by rw [h2]; exact hσ.frames⟩,
    trivial⟩

theorem ask (c : HostCall) : Safe Θ G L (Eval.ask c) fun _ _ => True :=
  modify fun _ hσ => ⟨hσ.store, hσ.frames⟩

theorem answered (o : Option α) : Safe Θ G L (Eval.answered o) fun _ a => o = some a := by
  cases o with
  | some a => exact pure rfl
  | none => exact throw rfl

theorem orPanic {r : Except Panic α} (hr : ∀ a, r = .ok a → Q Θ a) :
    Safe Θ G L (Eval.orPanic r) Q := by
  cases r with
  | ok a => exact pure (hr a rfl)
  | error p => exact fail rfl

theorem located {token : Token} (hm : SafeIn Θ G L P m Q) :
    SafeIn Θ G L P (Eval.located token m) Q := by
  intro σ hσ
  have := hm σ hσ
  rw [Eval.run_located]
  rcases hr : m.run.run σ with ⟨(f | _) | a, σ'⟩ <;> rw [hr] at this
  · refine ⟨?_, this.2⟩
    have hcause : (f.atToken token).cause = f.cause := by
      unfold Failure.atToken
      split <;> rfl
    exact (congrArg Cause.isMistyped hcause).trans this.1
  · exact this
  · exact this

/-- A block of its own leaves the blocks around it as they are. -/
theorem nested (hm : SafeIn Θ G ([] :: L) P m Q) (hP : ∀ K, P K → SameBelow ([] :: L) K) :
    Safe Θ G L (Eval.nested m) Q := by
  intro σ hσ
  have := hm { σ with frames := σ.frames.nest } ⟨hσ.store, hσ.frames.nest⟩
  have hrun : (Eval.nested m).run.run σ =
      match m.run.run { σ with frames := σ.frames.nest } with
      | (r, σ') => (r, { σ' with frames := σ'.frames.unnest }) := rfl
  rw [hrun]
  have hback : ∀ {Θ' K σ'}, SameBelow ([] :: L) K → MachineTyped Θ' G K σ' →
      MachineTyped Θ' G L { σ' with frames := σ'.frames.unnest } := by
    intro Θ' K σ' hK hσ'
    obtain ⟨l, rfl⟩ : ∃ l, K = l :: L := by
      cases K with
      | nil => exact absurd hK.length (by simp)
      | cons l _ => exact ⟨l, congrArg _ hK.tail⟩
    exact ⟨hσ'.store, hσ'.frames.unnest⟩
  rcases hr : m.run.run { σ with frames := σ.frames.nest } with ⟨_ | a, σ'⟩ <;> rw [hr] at this
  · obtain ⟨hi, Θ', K, hle, hK, hσ'⟩ := this
    exact ⟨hi, Θ', L, hle, .refl L, hback hK hσ'⟩
  · obtain ⟨Θ', K, hle, hK, hσ', hQ⟩ := this
    exact ⟨Θ', L, hle, rfl, hback (hP K hK) hσ', hQ⟩

/-- A body of its own sees the globals only, and the frames of before come back. -/
theorem inBody (hm : SafeIn Θ G [[]] P m Q) : Safe Θ G L (Eval.inBody m) Q := by
  intro σ hσ
  have := hm _ hσ.enterBody
  have hrun : (Eval.inBody m).run.run σ =
      match m.run.run { σ with frames := σ.frames.enterBody } with
      | (r, σ') => (r, { σ' with frames := σ'.frames.leaveBody σ.frames.locals }) := rfl
  rw [hrun]
  have hback : ∀ {Θ' K σ'}, Θ ≤ Θ' → MachineTyped Θ' G K σ' →
      MachineTyped Θ' G L { σ' with frames := σ'.frames.leaveBody σ.frames.locals } :=
    fun hle hσ' => ⟨hσ'.store, hσ'.frames.globals, (hσ.frames.mono hle).locals⟩
  rcases hr : m.run.run { σ with frames := σ.frames.enterBody } with ⟨_ | a, σ'⟩ <;> rw [hr] at this
  · obtain ⟨hi, Θ', K, hle, -, hσ'⟩ := this
    exact ⟨hi, Θ', L, hle, .refl L, hback hle hσ'⟩
  · obtain ⟨Θ', K, hle, -, hσ', hQ⟩ := this
    exact ⟨Θ', L, hle, rfl, hback hle hσ', hQ⟩

/-! ### Storage and variables -/

theorem newArray {elems : Array Value} {t : Ty} {a : ArrayTy} (ha : t.same (.array a.elem))
    (ht : ∀ v ∈ elems.toList, HasType Θ v a.elem) (he : a.isEmpty → elems = #[]) :
    Safe Θ G L (Eval.newArray elems t) fun Θ' v =>
      HasType Θ' v t ∧ (a.isEmpty → v.IsEmptyArray Θ') := by
  intro σ hσ
  have hle := Θ.le_pushArray a
  have hnew : (Θ.pushArray a).arrays[σ.world.store.arrays.size]? = some a := by
    simp [StoreTy.pushArray, hσ.store.arrays_size.symm]
  exact ⟨Θ.pushArray a, L, hle, rfl, ⟨hσ.store.newArray ht he, hσ.frames.mono hle⟩,
    ⟨Ty.same_refl t, a, hnew, ha⟩, fun hempty => ⟨_, t, a, rfl, hnew, hempty⟩⟩

theorem newMap {pairs : Pairs Value} {t e : Ty} (ha : t.same (.map e))
    (ht : ∀ k v, pairs.get? k = some v → HasType Θ v e) :
    Safe Θ G L (Eval.newMap pairs t) fun Θ' v => HasType Θ' v t := by
  intro σ hσ
  have hle := Θ.le_pushMap e
  refine ⟨Θ.pushMap e, L, hle, rfl, ⟨hσ.store.newMap ht, hσ.frames.mono hle⟩, Ty.same_refl t, e, ?_, ha⟩
  simp [StoreTy.pushMap, hσ.store.maps_size.symm]

theorem lookup {name : String} {τ : Ty} (hname : name ≠ "_") (hτ : varTy? G L name = some τ) :
    Safe Θ G L (Eval.lookup name) fun Θ' v => HasType Θ' v τ := by
  unfold Eval.lookup
  refine get.andThen fun Θ' σ hle hσ => ?_
  split
  · next v hv => exact pure ((hσ.frames.get? hname hτ hv).mono hle)
  · exact fail rfl

theorem assign {name : String} {τ : Ty} {v : Value} (hname : name ≠ "_")
    (hτ : varTy? G L name = some τ) (hv : HasType Θ v τ) :
    Safe Θ G L (Eval.assign name v) fun _ _ => True := by
  unfold Eval.assign
  refine get.andThen fun Θ' σ hle hσ => ?_
  split
  · next fs hfs => exact modifyFrames fun _ _ => (hσ.frames.assign? hname hτ hv hfs).mono hle
  · exact fail rfl

/-! ### The host -/

theorem readLine : Safe Θ G L Eval.readLine fun _ _ => True :=
  modifyGet fun _ => ⟨rfl, rfl⟩

theorem randomly (bound : Nat) : Safe Θ G L (Eval.randomly bound) fun _ _ => True :=
  modifyGet fun _ => ⟨rfl, rfl⟩

theorem tick : Safe Θ G L Eval.tick fun _ _ => True := by
  unfold Eval.tick
  refine get.andThen fun Θ' σ _ _ => ?_
  dsimp only
  split
  · exact fail_bind rfl
  · exact modifyGet fun _ => ⟨rfl, rfl⟩

end SafeIn

end

end TinyScript
