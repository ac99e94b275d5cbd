import TinyScript.Proofs.Simulation.AnyFree
import TinyScript.Proofs.Simulation.Matching
import TinyScript.Proofs.Typing.Operators

/-!
# Operations on mirrored values

Each operation of the evaluator on typed values is matched by its instruction on their mirror images. The
machine ends (`Ends`) with the mirror image of the result on top of its stack and with mirrored storage,
and no variable is changed.
-/

namespace TinyScript.Bytecode

/-- The evaluator is free to go on, and the machine has mirrored storage. -/
structure Abreast (σ : Machine) (st : Store Cell) : Prop where
  free : σ.Free
  store : Reflects σ.world.store st

/-- The machine ends at place `q` with cells on its stack that `R` relates to the result, and the
evaluator has the same variables as in `σ`. -/
def Ends {α : Type} (σ : Machine) (q : Nat) (stack : List Cell) (g : Array Cell) (R : α → List Cell → Prop)
    (x : α) (σ' : Machine) (s : Conf) : Prop :=
  ∃ cs st, s = ⟨q, cs ++ stack, g, st⟩ ∧ σ'.frames = σ.frames ∧ Abreast σ' st ∧ R x cs

/-- A cell that mirrors a value. -/
def Image (v : Value) (cs : List Cell) : Prop :=
  ∃ c, cs = [c] ∧ Mirrors v c

section
variable {a : Assembly} {σ : Machine} {s : Conf} {p q : Nat} {stack : List Cell} {g : Array Cell}
  {st : Store Cell} {v w : Value} {c d : Cell} {Θ : StoreTy} {l r t : Ty}

namespace Matches

/-- The evaluator has a result, and the machine gets there. -/
theorem ends {α : Type} {x : α} {cs : List Cell} {R : α → List Cell → Prop} (hσ : Abreast σ st)
    (hlead : Leads a s (.ok ⟨q, cs ++ stack, g, st⟩)) (hR : R x cs) :
    Matches a (Pure.pure x) σ s (Ends σ q stack g R) :=
  lead hlead (pure ⟨cs, st, rfl, rfl, hσ, hR⟩)

theorem image (hσ : Abreast σ st) (hlead : Leads a s (.ok ⟨q, c :: stack, g, st⟩)) (hv : Mirrors v c) :
    Matches a (Pure.pure v) σ s (Ends σ q stack g Image) :=
  ends hσ hlead ⟨c, rfl, hv⟩

/-- An operation that gives a value or panics. -/
theorem imageOr {t : Except Panic Value} {u : Except Panic Cell} (hσ : Abreast σ st)
    (h : Agreeing Mirrors t u) (hlead : Leads a s (u.map (⟨q, · :: stack, g, st⟩))) :
    Matches a (Eval.orPanic t) σ s (Ends σ q stack g Image) :=
  orPanic h hlead fun _ c hv => ⟨[c], st, rfl, rfl, hσ, c, rfl, hv⟩

theorem newArray {vs : Array Value} {cs : Array Cell} {ty : Ty} (hσ : Abreast σ st)
    (hvs : List.Forall₂ Mirrors vs.toList cs.toList)
    (hlead : Leads a s (.ok ⟨q, .array (st.newArray cs).1 :: stack, g, (st.newArray cs).2⟩)) :
    Matches a (Eval.newArray vs ty) σ s (Ends σ q stack g Image) := by
  obtain ⟨href, hstore⟩ := hσ.store.newArray hvs
  rw [href] at hlead
  exact ⟨_, hlead, [_], _, rfl, rfl, ⟨⟨hσ.free.running, hσ.free.unlimited⟩, hstore⟩, _, rfl, .array _ ty⟩

theorem newMap {ps : Pairs Value} {qs : Pairs Cell} {ty : Ty} (hσ : Abreast σ st) (hps : MirrorPairs ps qs)
    (hlead : Leads a s (.ok ⟨q, .map (st.newMap qs).1 :: stack, g, (st.newMap qs).2⟩)) :
    Matches a (Eval.newMap ps ty) σ s (Ends σ q stack g Image) := by
  obtain ⟨href, hstore⟩ := hσ.store.newMap hps
  rw [href] at hlead
  exact ⟨_, hlead, [_], _, rfl, rfl, ⟨⟨hσ.free.running, hσ.free.unlimited⟩, hstore⟩, _, rfl, .map _ ty⟩

end Matches

/-! ### Elements, slices and fields -/

theorem agreeing_texts {t : Except Panic String} : Agreeing Mirrors (t.map .str) (t.map .str) := by
  cases t with
  | ok u => exact .ok (.str u)
  | error e => exact .panic e

theorem matches_at (hty : l.IndexedBy r t) (hv : HasType Θ v l) (hw : HasType Θ w r) (hvc : Mirrors v c)
    (hwd : Mirrors w d) (hσ : Abreast σ st) (hi : InstrAt a.code p ⟨.index, []⟩) :
    Matches a (v.at w) σ ⟨p, d :: c :: stack, g, st⟩ (Ends σ (p + 1) stack g Image) := by
  obtain ⟨hk, hr, -⟩ | ⟨hk, hr, -⟩ | ⟨hk, hr, -⟩ := hty
  · obtain ⟨ref, ty, rfl⟩ := hv.array_inv hk
    obtain ⟨x, rfl⟩ := hw.num_inv (Ty.kind_eq_of_same hr)
    cases hvc
    cases hwd
    exact .imageOr hσ (hσ.store.elemAt ref x) (.index hi (.elemAt ref x))
  · obtain ⟨ref, ty, rfl⟩ := hv.map_inv hk
    obtain ⟨key, rfl⟩ := hw.str_inv (Ty.kind_eq_of_same hr)
    cases hvc
    cases hwd
    exact .imageOr hσ (hσ.store.fieldOf ref key) (.index hi (.fieldOf ref key))
  · obtain ⟨u, rfl⟩ := hv.str_inv hk
    obtain ⟨x, rfl⟩ := hw.num_inv (Ty.kind_eq_of_same hr)
    cases hvc
    cases hwd
    exact .imageOr hσ agreeing_texts (.index hi (.charAt u x))

theorem matches_field {key : String} (hk : l.kind = .map) (hv : HasType Θ v l) (hvc : Mirrors v c)
    (hσ : Abreast σ st) (hi : InstrAt a.code p ⟨.index, []⟩) :
    Matches a (v.field key) σ ⟨p, .str key :: c :: stack, g, st⟩ (Ends σ (p + 1) stack g Image) := by
  obtain ⟨ref, ty, rfl⟩ := hv.map_inv hk
  cases hvc
  exact .imageOr hσ (hσ.store.fieldOf ref key) (.index hi (.fieldOf ref key))

theorem matches_slice {x y : Option Float} (hk : l.kind = .array ∨ l.kind = .string) (hv : HasType Θ v l)
    (hvc : Mirrors v c) (hσ : Abreast σ st) (hi : InstrAt a.code p ⟨.slice, []⟩) :
    Matches a (v.slice x y) σ ⟨p, Acts.bound y :: Acts.bound x :: c :: stack, g, st⟩
      (Ends σ (p + 1) stack g Image) := by
  rcases hk with hk | hk
  · obtain ⟨ref, ty, rfl⟩ := hv.array_inv hk
    cases hvc
    have hlead : Leads a ⟨p, Acts.bound y :: Acts.bound x :: .array ref :: stack, g, st⟩ _ := .sliceArray hi
    have hagree := hσ.store.sliceOf ref x y
    show Matches a (Eval.orPanic (σ.world.store.sliceOf ref x y) >>= fun vs => Eval.newArray vs ty) σ _ _
    revert hlead hagree
    cases σ.world.store.sliceOf ref x y <;> cases st.sliceOf ref x y <;> rintro hlead ⟨⟩
    · exact .panic hlead
    · next hvs => exact .newArray hσ hvs hlead
  · obtain ⟨u, rfl⟩ := hv.str_inv hk
    cases hvc
    have hlead : Leads a ⟨p, Acts.bound y :: Acts.bound x :: .str u :: stack, g, st⟩ _ := .sliceText hi
    refine .imageOr hσ agreeing_texts ?_
    cases hslice : Index.sliceText u x y <;> rw [hslice] at hlead <;> exact hlead

/-- An element is changed, by a value that lies below its place on the stack. -/
theorem matches_setElem {ref : Nat} {x : Float} (hvc : Mirrors v c) (hσ : Abreast σ st)
    (hi : InstrAt a.code p ⟨.setIndex, []⟩) :
    Matches a (Eval.setElem ref x v) σ ⟨p, .num x :: .array ref :: c :: stack, g, st⟩
      (Ends σ (p + 1) stack g fun _ cs => cs = []) := by
  have hlead : Leads a ⟨p, .num x :: .array ref :: c :: stack, g, st⟩ _ := .setElem hi
  rw [hσ.store.placeOf_eq] at hlead
  show Matches a (Eval.orPanic (σ.world.store.placeOf ref x) >>= fun i =>
    Eval.modifyStore (·.setElem ref i v)) σ _ _
  revert hlead
  cases σ.world.store.placeOf ref x with
  | error e => exact fun hlead => .panic hlead
  | ok i => exact fun hlead => ⟨_, hlead, [], _, rfl, rfl, ⟨⟨hσ.free.running, hσ.free.unlimited⟩,
      hσ.store.setElem ref i hvc⟩, rfl⟩

/-- The value of a key is changed. -/
theorem matches_setField {ref : Nat} {key : String} (hvc : Mirrors v c) (hσ : Abreast σ st)
    (hi : InstrAt a.code p ⟨.setIndex, []⟩) :
    Matches a (Eval.setField ref key v) σ ⟨p, .str key :: .map ref :: c :: stack, g, st⟩
      (Ends σ (p + 1) stack g fun _ cs => cs = []) := by
  have hlead : Leads a ⟨p, .str key :: .map ref :: c :: stack, g, st⟩ _ := .setField hi
  exact ⟨_, hlead, [], _, rfl, rfl, ⟨⟨hσ.free.running, hσ.free.unlimited⟩, hσ.store.setField ref key hvc⟩, rfl⟩

/-! ### Operators -/

theorem matches_unary {op : UnaryOp} (hop : op.Takes t) (hv : HasType Θ v t) (hvc : Mirrors v c)
    (hσ : Abreast σ st) (hi : InstrAt a.code p ⟨opcodeOfUnary op, []⟩) :
    Matches a (op.eval v) σ ⟨p, c :: stack, g, st⟩
      (Ends σ (p + (opcodeOfUnary op).size) stack g Image) := by
  cases op with
  | neg =>
    obtain ⟨x, rfl⟩ := hv.num_inv (Ty.kind_eq_of_same hop)
    cases hvc
    exact .image hσ (.minus hi) (.num _)
  | not =>
    obtain ⟨b, rfl⟩ := hv.bool_inv (Ty.kind_eq_of_same hop)
    cases hvc
    exact .image hσ (.not hi) (.bool _)

theorem equals_of_typed {u : Store Value} (hu : StoreTyped Θ u) (hl : l.anyFree) (hv : HasType Θ v l)
    (hstore : Reflects u st) (hvc : Mirrors v c) (hwd : Mirrors w d) :
    ∃ b, v.equals u w = some b ∧ c.equals st d = some b := by
  have hacyclic := hv.acyclic hu hl
  obtain ⟨b, hb⟩ := Option.isSome_iff_exists.1 (Value.equals_isSome hacyclic w).1
  exact ⟨b, hb, (hvc.equals_eq hstore hacyclic hwd).symm.trans hb⟩

/-- An operator on numbers, unless it is an equality. -/
theorem matches_nums {op : BinaryOp} {code : Opcode} {x y : Float} (hcode : opcodeOf? op .num = some code)
    (heq : op ≠ .eq) (hne : op ≠ .notEq) (hσ : Abreast σ st) (hi : InstrAt a.code p ⟨code, []⟩) :
    Matches a (op.eval (.num x) (.num y)) σ ⟨p, .num y :: .num x :: stack, g, st⟩
      (Ends σ (p + code.size) stack g Image) := by
  cases op with
  | eq => exact absurd rfl heq
  | notEq => exact absurd rfl hne
  | and | or => cases hcode
  | add | sub | mul | div | rem =>
    cases hcode
    exact .image hσ (.nums hi fun _ _ => rfl) (.num _)
  | lt | gt | ltEq | gtEq =>
    cases hcode
    exact .image hσ (.nums hi fun _ _ => rfl) (.bool _)

/-- An operator on texts, unless it is an equality. -/
theorem matches_texts {op : BinaryOp} {code : Opcode} {x y : String} {l r : Ty} (hop : op.Takes l r t)
    (hl : l.kind = .string) (hcode : opcodeOf? op .string = some code) (heq : op ≠ .eq) (hne : op ≠ .notEq)
    (hσ : Abreast σ st) (hi : InstrAt a.code p ⟨code, []⟩) :
    Matches a (op.eval (.str x) (.str y)) σ ⟨p, .str y :: .str x :: stack, g, st⟩
      (Ends σ (p + code.size) stack g Image) := by
  cases op with
  | eq => exact absurd rfl heq
  | notEq => exact absurd rfl hne
  | and | or => cases hcode
  | sub | mul | div | rem => exact absurd (hl.symm.trans (Ty.kind_eq_of_same hop.1)) (by decide)
  | add =>
    cases hcode
    exact .image hσ (.texts hi fun _ _ => rfl) (.str _)
  | lt | gt | ltEq | gtEq =>
    cases hcode
    exact .image hσ (.texts hi fun _ _ => rfl) (.bool _)

/-- What is known about the operands of an operator that has code. -/
theorem operands_of_takes {op : BinaryOp} (hop : op.Takes l r t) (hand : op ≠ .and) (hor : op ≠ .or)
    (heq : op ≠ .eq) (hne : op ≠ .notEq) : (l.kind = .num ∧ r.kind = .num) ∨
      (l.kind = .string ∧ r.kind = .string) ∨ (op = .add ∧ l.kind = .array ∧ r.kind = .array) := by
  cases op with
  | and => exact absurd rfl hand
  | or => exact absurd rfl hor
  | eq => exact absurd rfl heq
  | notEq => exact absurd rfl hne
  | add =>
    obtain ⟨hl, hr, -⟩ | ⟨hl, hr, -⟩ | ⟨hl, hr, -⟩ := hop
    · exact .inl ⟨Ty.kind_eq_of_same hl, Ty.kind_eq_of_same hr⟩
    · exact .inr (.inl ⟨Ty.kind_eq_of_same hl, Ty.kind_eq_of_same hr⟩)
    · exact .inr (.inr ⟨rfl, hl, hr⟩)
  | sub | mul | div | rem => exact .inl ⟨Ty.kind_eq_of_same hop.1, Ty.kind_eq_of_same hop.2.1⟩
  | lt | gt | ltEq | gtEq =>
    obtain ⟨⟨hl, hr⟩ | ⟨hl, hr⟩, -⟩ := hop
    · exact .inl ⟨Ty.kind_eq_of_same hl, Ty.kind_eq_of_same hr⟩
    · exact .inr (.inl ⟨Ty.kind_eq_of_same hl, Ty.kind_eq_of_same hr⟩)

/-- An operator whose operands are both computed. -/
theorem matches_binary {op : BinaryOp} {code : Opcode} (hop : op.Takes l r t) (hand : op ≠ .and)
    (hor : op ≠ .or) (hl : l.anyFree) (hcode : opcodeOf? op l.kind = some code)
    (hstore : StoreTyped Θ σ.world.store) (hv : HasType Θ v l) (hw : HasType Θ w r) (hvc : Mirrors v c)
    (hwd : Mirrors w d) (hσ : Abreast σ st) (hi : InstrAt a.code p ⟨code, []⟩) :
    Matches a (op.eval v w) σ ⟨p, d :: c :: stack, g, st⟩ (Ends σ (p + code.size) stack g Image) := by
  obtain ⟨b, hvalues, hcells⟩ := equals_of_typed hstore hl hv hσ.store hvc hwd
  by_cases heq : op = .eq
  · subst heq
    cases hcode
    refine .store ?_
    rw [hvalues]
    exact .image hσ (.equal hi hcells) (.bool _)
  by_cases hne : op = .notEq
  · subst hne
    cases hcode
    refine .store ?_
    rw [hvalues]
    exact .image hσ (.notEqual hi hcells) (.bool _)
  obtain ⟨hkl, hkr⟩ | ⟨hkl, hkr⟩ | ⟨rfl, hkl, hkr⟩ := operands_of_takes hop hand hor heq hne
  · obtain ⟨x, rfl⟩ := hv.num_inv hkl
    obtain ⟨y, rfl⟩ := hw.num_inv hkr
    cases hvc
    cases hwd
    exact matches_nums (hkl ▸ hcode) heq hne hσ hi
  · obtain ⟨x, rfl⟩ := hv.str_inv hkl
    obtain ⟨y, rfl⟩ := hw.str_inv hkr
    cases hvc
    cases hwd
    exact matches_texts hop hkl (hkl ▸ hcode) heq hne hσ hi
  · obtain ⟨x, tx, rfl⟩ := hv.array_inv hkl
    obtain ⟨y, ty, rfl⟩ := hw.array_inv hkr
    cases hvc
    cases hwd
    rw [hkl] at hcode
    cases hcode
    refine .store (.newArray hσ ?_ (.arrayConcatenate hi))
    rw [Array.toList_append, Array.toList_append]
    exact List.rel_append (hσ.store.array x) (hσ.store.array y)

end

end TinyScript.Bytecode
