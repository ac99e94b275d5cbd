import TinyScript.Proofs.Simulation.Landing

/-!
# Loops are matched by their code

A loop with a condition is matched round by round (`Runs.whileLoop`). A loop over a range keeps an iterator
on the stack, which has what is left to run through (`matches_countLoop` and so on). In its frame there is
at most the loop variable, which every round sets anew in the same slot (`matches_bindLoopVar`).
-/

namespace TinyScript.Bytecode
open Symbols (SameNames SameOutside)

theorem Symbols.SameNames.symm {sy sy' : Symbols} (h : SameNames sy sy') : SameNames sy' sy :=
  ⟨h.globals.symm, h.blocks.symm⟩

section
variable {a : Assembly} {F : Sigs} {G : Vars} {L : List Scoping} {sy sy' : Symbols} {B : Symbols → Prop}
  {it : Bool} {p q x : Nat} {σ : Machine} {g : Array Cell} {st : Store Cell} {stack : List Cell} {Θ : StoreTy}

theorem Runs.whileLoop {round : Eval (Option Flow)} {T : StoreTy → Option Flow → Prop}
    (hround : ∀ Θ σ g st stack, Mirrored Θ G L sy σ g st →
      Matches a round σ ⟨p, stack, g, st⟩ (BranchLands G L sy false stack q p q sy'))
    (hsafe : ∀ Θ, Safe Θ G L round T) (hs : SameNames sy sy') (fuel : Nat) :
    Runs a G L sy B sy' it p q x (Eval.whileLoop round fuel) := by
  intro Θ σ g st stack hit hσ
  induction fuel generalizing Θ σ g st with
  | zero => exact .outOfFuel
  | succ fuel ih =>
    refine ((hround Θ σ g st stack hσ).typed (hsafe Θ) hσ.typed).bind fun o τ s ho => ?_
    obtain ⟨hlands, Θ', K, -, rfl, htyped, -⟩ := ho
    match o with
    | none =>
      obtain ⟨Θ₁, g', st', rfl, hτ⟩ := hlands
      exact .pure ⟨g', st', rfl, hτ.inStep.of_sameNames hs⟩
    | some .next =>
      obtain ⟨g', st', rfl, hstep⟩ := hlands
      exact ih Θ' τ g' st' ⟨htyped, hstep.of_sameNames hs.symm⟩
    | some .brk =>
      obtain ⟨sy₁, g', st', rfl, hsy₁, hstep⟩ := hlands
      exact .pure ⟨g', st', rfl, hstep.of_sameNames (hsy₁.symm.trans hs)⟩
    | some (.ret v) => exact hlands.elim

/-! ### Rounds over a range -/

/-- The evaluator is before a round of a loop: in the frame of the loop there is the loop variable, or
nothing before the first round. -/
structure RoundStart (Θ : StoreTy) (G : Vars) (L : List Scoping) (sy : Symbols) (var : Option Var) (σ : Machine)
    (g : Array Cell) (st : Store Cell) : Prop where
  typed : ∃ K, SafeIn.InRounds L var K ∧ MachineTyped Θ G K σ
  inStep : InStep sy.nest σ g st ∨ InStep (loopSymbols sy var) σ g st

/-- The machine has left the loop. The frame of the loop is still open. -/
def Over (sy : Symbols) (stack : List Cell) (stop : Nat) (flow : Flow) (σ : Machine) (s : Conf) : Prop :=
  flow = .next ∧ ∃ sy' g st, s = ⟨stop, stack, g, st⟩ ∧ SameOutside sy.nest sy' ∧ InStep sy' σ g st

/-- After a round the machine is at the head of the loop with the iterator on top of its stack, or it has
left the loop. -/
def RoundEnds (Θ : StoreTy) (G : Vars) (L : List Scoping) (sy : Symbols) (var : Option Var)
    (stack : List Cell) (head stop : Nat) (iter : RangeIter) (flow : Flow) (σ : Machine) (s : Conf) : Prop :=
  match flow with
  | .next => ∃ Θ' g st, s = ⟨head, .range iter :: stack, g, st⟩ ∧ Θ ≤ Θ' ∧ RoundStart Θ' G L sy var σ g st
  | .brk => Over sy stack stop .next σ s
  | .ret _ => False

/-- The code after the head of a loop runs a round for a value that it has on the stack, if there is a loop
variable. -/
def Rounds (a : Assembly) (G : Vars) (L : List Scoping) (sy : Symbols) (var : Option Var)
    (stack : List Cell) (head stop : Nat) (round : Value → Eval Flow) : Prop :=
  ∀ (Θ : StoreTy) (σ : Machine) (g : Array Cell) (st : Store Cell) (v : Value) (c : Cell) (iter : RangeIter),
    RoundStart Θ G L sy var σ g st → (∀ t, var.map (·.ty) = some t → HasType Θ v t) → Mirrors v c →
      Matches a (round v) σ
        ⟨head + 5, (if var.isSome.toNat ≠ 0 then [c] else []) ++ .range iter :: stack, g, st⟩
        (RoundEnds Θ G L sy var stack head stop iter)

theorem sameOutside_loopSymbols (sy : Symbols) (var : Option Var) :
    SameOutside sy.nest (loopSymbols sy var) := by
  cases var with
  | none => exact (SameNames.refl _).outside (List.cons_ne_nil _ _)
  | some v => exact Symbols.sameOutside_define (List.cons_ne_nil _ _) v.name

theorem RoundStart.exists_inStep {var : Option Var} (h : RoundStart Θ G L sy var σ g st) :
    ∃ sy', SameOutside sy.nest sy' ∧ InStep sy' σ g st := by
  rcases h.inStep with h | h
  · exact ⟨_, (SameNames.refl _).outside (List.cons_ne_nil _ _), h⟩
  · exact ⟨_, sameOutside_loopSymbols sy var, h⟩

section
variable {var : Option Var} {head stop : Nat} {round : Value → Eval Flow} {c : Cell} {iter : RangeIter}
  (hrounds : Rounds a G L sy var stack head stop round)
  (hi : InstrAt a.code head ⟨.iterRange, [var.isSome.toNat, stop]⟩)
include hi

/-- The loop ends when the iterator has nothing left. -/
theorem matches_end (hc : c.iter? st = some iter) (hnext : (iter.next st).1 = none)
    (hσ : RoundStart Θ G L sy var σ g st) :
    Matches a (pure .next) σ ⟨head, c :: stack, g, st⟩ (Over sy stack stop) := by
  obtain ⟨sy', hout, hstep⟩ := hσ.exists_inStep
  exact .lead (.iterRange_none hi hc hnext) (.pure ⟨rfl, sy', g, st, rfl, hout, hstep⟩)

include hrounds

/-- A round for the next value, and the loop over what is left after it. -/
theorem matches_round {v : Value} {d : Cell} {loop : Eval Flow} (hc : c.iter? st = some iter)
    {rest : RangeIter} (hnext : iter.next st = (some d, rest)) (hσ : RoundStart Θ G L sy var σ g st)
    (hv : ∀ t, var.map (·.ty) = some t → HasType Θ v t) (hvd : Mirrors v d)
    (hloop : ∀ Θ' σ' g' st', Θ ≤ Θ' → RoundStart Θ' G L sy var σ' g' st' →
      Matches a loop σ' ⟨head, .range rest :: stack, g', st'⟩ (Over sy stack stop)) :
    Matches a (round v >>= fun flow => flow.thenRound loop) σ ⟨head, c :: stack, g, st⟩
      (Over sy stack stop) := by
  refine .lead (.iterRange_some hi hc (congrArg Prod.fst hnext)) ?_
  rw [hnext]
  refine (hrounds Θ σ g st v d rest hσ hv hvd).bind fun flow σ' s hflow => ?_
  cases flow with
  | next =>
    obtain ⟨Θ', g', st', rfl, hle, hσ'⟩ := hflow
    exact hloop Θ' σ' g' st' hle hσ'
  | brk => exact .pure hflow
  | ret => exact hflow.elim

theorem matches_countLoop (hτ : ∀ t, var.map (·.ty) = some t → t.same .num) (last step : Float) (fuel : Nat)
    {y : Float} (hc : c.iter? st = some (.step y last step)) (hσ : RoundStart Θ G L sy var σ g st) :
    Matches a (Eval.countLoop round last step fuel y) σ ⟨head, c :: stack, g, st⟩ (Over sy stack stop) := by
  induction fuel generalizing Θ σ g st c y with
  | zero => exact .outOfFuel
  | succ fuel ih =>
    unfold Eval.countLoop
    cases hin : Eval.inRange y last step with
    | true =>
      have hnext : (RangeIter.step y last step).next st = (some (.num y), .step (y + step) last step) :=
        if_pos hin
      exact matches_round hrounds hi hc hnext hσ (fun t ht => .num (hτ t ht) y) (.num y)
        fun Θ' σ' g' st' _ hσ' => ih rfl hσ'
    | false =>
      have hnext : (RangeIter.step y last step).next st = (none, .step y last step) :=
        if_neg (Bool.eq_false_iff.1 hin)
      exact matches_end hi hc (congrArg Prod.fst hnext) hσ

theorem matches_arrayLoop {ref : Nat} {e : ArrayTy} (ha : Θ.arrays[ref]? = some e)
    (hτ : e.isEmpty ∨ ∀ t, var.map (·.ty) = some t → t.same e.elem) (fuel : Nat) {i : Nat}
    (hc : c.iter? st = some (.array ref i)) (hσ : RoundStart Θ G L sy var σ g st) :
    Matches a (Eval.arrayLoop round ref fuel i) σ ⟨head, c :: stack, g, st⟩ (Over sy stack stop) := by
  induction fuel generalizing Θ σ g st c i with
  | zero => exact .outOfFuel
  | succ fuel ih =>
    obtain ⟨K, hK, htyped⟩ := hσ.typed
    obtain ⟨sy', -, hstep⟩ := hσ.exists_inStep
    have hget := hstep.abreast.store.getElem? ref i
    refine .store ?_
    cases hv : (σ.world.store.array ref)[i]? with
    | some v =>
      rw [hv] at hget
      obtain ⟨d, hd, hvd⟩ : ∃ d, (st.array ref)[i]? = some d ∧ Mirrors v d := by
        revert hget
        cases (st.array ref)[i]? <;> rintro ⟨⟩
        next d hvd => exact ⟨d, rfl, hvd⟩
      have hnext : (RangeIter.array ref i).next st = (some d, .array ref (i + 1)) := by
        rw [RangeIter.next, hd]
      exact matches_round hrounds hi hc hnext hσ (htyped.store.hasType_elem ha hτ hv) hvd
        fun Θ' σ' g' st' hle hσ' => ih (hle.arrays ref e ha) rfl hσ'
    | none =>
      rw [hv] at hget
      have hd : (st.array ref)[i]? = none := by
        revert hget
        cases (st.array ref)[i]? <;> rintro ⟨⟩
        rfl
      have hnext : (RangeIter.array ref i).next st = (none, .array ref i) := by
        rw [RangeIter.next, hd]
      exact matches_end hi hc (congrArg Prod.fst hnext) hσ

theorem matches_textLoop (hτ : ∀ t, var.map (·.ty) = some t → t.same .string) {cs : List Char}
    (hc : c.iter? st = some (.text cs)) (hσ : RoundStart Θ G L sy var σ g st) :
    Matches a (Eval.textLoop round cs) σ ⟨head, c :: stack, g, st⟩ (Over sy stack stop) := by
  induction cs generalizing Θ σ g st c with
  | nil => exact matches_end hi hc rfl hσ
  | cons ch cs ih =>
    exact matches_round hrounds hi hc rfl hσ (fun t ht => .str (hτ t ht) _) (.str _)
      fun Θ' σ' g' st' _ hσ' => ih rfl hσ'

/-- The iterator may still have keys that have left the map. -/
theorem matches_mapLoop (hτ : ∀ t, var.map (·.ty) = some t → t.same .string) {ref : Nat} {keys : List String}
    (hc : c.iter? st = some iter) (hiter : iter.next st = (RangeIter.map ref keys).next st)
    (hσ : RoundStart Θ G L sy var σ g st) :
    Matches a (Eval.mapLoop round ref keys) σ ⟨head, c :: stack, g, st⟩ (Over sy stack stop) := by
  induction keys generalizing Θ σ g st c iter with
  | nil => exact matches_end hi hc (congrArg Prod.fst hiter) hσ
  | cons key keys ih =>
    obtain ⟨sy', -, hstep⟩ := hσ.exists_inStep
    have hcontains := (hstep.abreast.store.map ref).contains_eq key
    refine .store ?_
    cases hkey : (σ.world.store.map ref).contains key with
    | true =>
      have hnext : iter.next st = (some (.str key), .map ref keys) := by
        rw [hiter, RangeIter.next, List.dropWhile_cons_of_neg (by rw [hcontains, hkey]; decide)]
      exact matches_round hrounds hi hc hnext hσ (fun t ht => .str (hτ t ht) _) (.str _)
        fun Θ' σ' g' st' _ hσ' => ih rfl rfl hσ'
    | false =>
      refine ih hc (hiter.trans ?_) hσ
      rw [RangeIter.next, List.dropWhile_cons_of_pos (by rw [hcontains, hkey]; decide), RangeIter.next]

end

/-! ### The rounds of a block -/

section
variable {var : Option Var} {head stop k : Nat} {invoke : Invoke} {fuel : Nat} {body : Block}

/-- Every round gives the variable of a loop the same slot. -/
theorem define_loopVar {v : Var} (h : sy' = sy.nest ∨ sy' = loopSymbols sy (some v)) :
    sy'.define v.name = ((sy.nest.define v.name).1, loopSymbols sy (some v)) := by
  rcases h with rfl | rfl
  · rfl
  · exact Symbols.define_of_here?_eq_some (by rw [loopSymbols, Symbols.here?_define, if_pos rfl])

theorem matches_bindLoopVar {v : Value} {c : Cell} {rest : List Cell} (hsy : sy.FromEdits)
    (hload : (bindChunk sy.nest var).Loaded a k p x) (hvc : Mirrors v c)
    (hσ : RoundStart Θ G L sy var σ g st) :
    Matches a (Eval.bindLoopVar var v) σ ⟨p, (if var.isSome.toNat ≠ 0 then [c] else []) ++ rest, g, st⟩
      fun _ σ' s => ∃ g' st', s = ⟨p + (bindChunk sy.nest var).size, rest, g', st'⟩ ∧
        InStep (loopSymbols sy var) σ' g' st' := by
  cases var with
  | none => exact .pure ⟨g, st, rfl, hσ.inStep.elim id id⟩
  | some y =>
    obtain ⟨sy', hsy', hedits, hstep⟩ : ∃ sy' : Symbols, (sy' = sy.nest ∨ sy' = loopSymbols sy (some y)) ∧
        sy'.FromEdits ∧ InStep sy' σ g st :=
      hσ.inStep.elim (fun h => ⟨_, .inl rfl, hsy.nest, h⟩) fun h => ⟨_, .inr rfl, hsy.loop (some y), h⟩
    have hdefine := define_loopVar hsy'
    have hi : InstrAt a.code p ⟨.setGlobal, [(sy.nest.define y.name).1]⟩ := hload.instr
    have hlt : (sy.nest.define y.name).1 < globalsSize := hi.operand_lt Nat.one_pos
    have htracks := hstep.tracks.define hedits y.name (hdefine ▸ hlt) hvc
    rw [hdefine] at htracks
    have habreast := hstep.abreast
    exact ⟨_, .setGlobal hi (hstep.tracks.size ▸ hlt), _, st, rfl, htracks,
      ⟨habreast.free.running, habreast.free.unlimited⟩, habreast.store⟩

/-- The rounds of a block, with the loop variable before it and a jump to the head of the loop after it. -/
theorem rounds_block {T : StoreTy → Flow → Prop} (hsy : sy.FromEdits)
    (hload : (bindChunk sy.nest var).Loaded a k (head + 5) stop)
    (hbody : Runs a G (loopScoping var :: L) (loopSymbols sy var) (SameNames (loopSymbols sy var)) sy' true
      (head + 5 + (bindChunk sy.nest var).size) q stop (body.run invoke fuel))
    (hsafe : ∀ Θ, Safe Θ G (loopScoping var :: L) (body.run invoke fuel) T)
    (hs : SameNames (loopSymbols sy var) sy') (hjump : InstrAt a.code q ⟨.jump, [head]⟩) :
    Rounds a G L sy var stack head stop fun v => Eval.bindLoopVar var v >>= fun _ => body.run invoke fuel := by
  intro Θ σ g st v c iter hσ hv hvc
  obtain ⟨K, hK, htyped⟩ := hσ.typed
  refine ((matches_bindLoopVar hsy hload hvc hσ).typed (SafeIn.bindLoopVar hK hv) htyped).bind
    fun _ σ₁ s hs₁ => ?_
  obtain ⟨⟨g₁, st₁, rfl, hstep₁⟩, Θ₁, K₁, hle₁, rfl, htyped₁, -⟩ := hs₁
  refine ((hbody Θ₁ σ₁ g₁ st₁ _ (Nat.le_add_left ..) ⟨htyped₁, hstep₁⟩).typed (hsafe Θ₁) htyped₁).follow
    fun flow σ₂ s₂ hflow => ?_
  obtain ⟨hlands, Θ₂, K₂, hle₂, rfl, htyped₂, -⟩ := hflow
  cases flow with
  | next =>
    obtain ⟨g₂, st₂, rfl, hstep₂⟩ := hlands
    exact ⟨_, .jump hjump, Θ₂, g₂, st₂, rfl, StoreTy.le_trans hle₁ hle₂,
      ⟨_, ⟨_, rfl, .inr rfl⟩, htyped₂⟩, .inr (hstep₂.of_sameNames hs.symm)⟩
  | brk =>
    obtain ⟨sy₁, g₂, st₂, rfl, hsy₁, hstep₂⟩ := hlands
    have hout := sameOutside_loopSymbols sy var
    exact ⟨_, .refl _, rfl, sy₁, g₂, st₂, rfl, hout.trans (hsy₁.outside hout.ne_nil), hstep₂⟩
  | ret => exact hlands.elim

end

/-! ### Ranges -/

section
variable {var : Option Var} {k stop : Nat} {invoke : Invoke} {fuel : Nat} {round : Value → Eval Flow}

theorem Range.matches_run (hinvoke : SafeInvoke F G invoke) {range : Range}
    (hc : range.Checked F (varTy? G L) (var.map (·.ty))) (hf : range.fitted F (var.map (·.ty)))
    (hany : range.anyFree) (hcode : range.Codable sy) (hload : (rangeChunk sy range).Loaded a k p x)
    (hi : InstrAt a.code (p + (rangeChunk sy range).size) ⟨.iterRange, [var.isSome.toNat, stop]⟩)
    (hrounds : Rounds a G L sy var stack (p + (rangeChunk sy range).size) stop round)
    (hσ : Mirrored Θ G ([] :: L) sy.nest σ g st) :
    Matches a (range.run invoke fuel round) σ ⟨p, stack, g, st⟩ (Over sy stack stop) := by
  have hreads : Reads Θ G ([] :: L) sy σ g st :=
    ⟨hσ.typed, fun name slot hslot => hσ.reads.sees name slot (Symbols.resolve?_nest.trans hslot),
      hσ.inStep.abreast⟩
  have hhead {Θ' : StoreTy} {σ' : Machine} {st' : Store Cell} (hframes : σ'.frames = σ.frames)
      (hσ' : Reads Θ' G ([] :: L) sy σ' g st') : RoundStart Θ' G L sy var σ' g st' :=
    ⟨⟨_, ⟨[], rfl, .inl rfl⟩, hσ'.typed⟩, .inl ⟨hframes ▸ hσ.inStep.tracks, hσ'.abreast⟩⟩
  cases range with
  | step start last stride =>
    obtain ⟨hc₁, hc₂, hc₃, hτ⟩ := hc
    simp only [Range.fitted, Bool.and_eq_true] at hf
    simp only [Range.anyFree, Bool.and_eq_true] at hany
    obtain ⟨hcode₁, hcode₂, hcode₃⟩ := hcode
    rw [rangeChunk, Chunk.seq_assoc, Chunk.seq_assoc] at hload hi hrounds
    rw [Chunk.add_size_seq, Chunk.add_size_seq, Chunk.add_size_seq] at hi hrounds
    obtain ⟨hload₁, hrest⟩ := hload.seq (closed_optionChunk sy start).regular
    obtain ⟨hload₂, hrest⟩ := hrest.seq (closed_exprChunk sy last).regular
    obtain ⟨hload₃, hstep⟩ := hrest.seq (closed_optionChunk sy stride).regular
    rw [Range.run_step]
    refine (Expr.computes_evalNumberOr (L := [] :: L) hinvoke 0.0 start hc₁ hf.1.1 hany.1.1 hcode₁ hload₁).bind hreads
      fun Θ₁ y cs₁ σ₁ st₁ hle₁ hframes₁ hσ₁ hy =>
      (Expr.computes_evalNumber (L := [] :: L) hinvoke last hc₂.1 hc₂.2 hf.1.2 hany.1.2 hcode₂ hload₂).bind hσ₁
      fun Θ₂ z cs₂ σ₂ st₂ hle₂ hframes₂ hσ₂ hz =>
      (Expr.computes_evalNumberOr (L := [] :: L) hinvoke 1.0 stride hc₃ hf.2 hany.2 hcode₃ hload₃).bind hσ₂
      fun Θ₃ w cs₃ σ₃ st₃ hle₃ hframes₃ hσ₃ hw => ?_
    obtain ⟨o₁, rfl, rfl⟩ := hy
    obtain rfl : cs₂ = [.num z] := hz
    obtain ⟨o₃, rfl, rfl⟩ := hw
    have hlead : Leads a ⟨_, Acts.bound o₃ :: .num z :: Acts.bound o₁ :: stack, g, st₃⟩ _ := .stepRange hstep.instr
    split
    · next hzero =>
      rw [if_pos hzero] at hlead
      exact .located (.panic hlead)
    · next hzero =>
      rw [if_neg hzero] at hlead
      exact .lead hlead (matches_countLoop hrounds hi hτ z _ fuel rfl
        (hhead (hframes₃.trans (hframes₂.trans hframes₁)) hσ₃))
  | «over» e =>
    have hfe := hf
    rw [Range.fitted, Bool.and_eq_true] at hfe
    refine (Expr.computes_eval (L := [] :: L) hinvoke e hc.1 hfe.1 hany hcode hload).bind hreads
      fun Θ' v cs σ' st' hle hframes hσ' hv => ?_
    obtain ⟨hv, c, rfl, hvc⟩ := hv
    have hat := hhead hframes hσ'
    cases Range.ranged hc hf hv.hasType with
    | array ha hτ =>
      cases hvc
      exact matches_arrayLoop hrounds hi ha hτ fuel rfl hat
    | text hτ =>
      cases hvc
      exact matches_textLoop hrounds hi hτ rfl hat
    | @map ref t hτ =>
      cases hvc
      refine .store ?_
      rw [← (hσ'.abreast.store.map ref).keys]
      exact matches_mapLoop hrounds hi hτ rfl rfl hat

/-- A loop over a range has a frame for its variable, which is closed when the loop is left. -/
theorem Runs.each (hinvoke : SafeInvoke F G invoke) {range : Range} (hsy : SameNames sy sy')
    (hc : range.Checked F (varTy? G L) (var.map (·.ty))) (hf : range.fitted F (var.map (·.ty)))
    (hany : range.anyFree) (hcode : range.Codable sy) (hload : (rangeChunk sy range).Loaded a k p x)
    (hi : InstrAt a.code (p + (rangeChunk sy range).size) ⟨.iterRange, [var.isSome.toNat, stop]⟩)
    (hrounds : ∀ stack, Rounds a G L sy var stack (p + (rangeChunk sy range).size) stop round) {r : Nat} :
    Runs a G L sy B sy' it p stop r (Eval.nested (range.run invoke fuel round)) := by
  intro Θ σ g st stack hit hσ
  have hnest : Mirrored Θ G ([] :: L) sy.nest { σ with frames := σ.frames.nest } g st :=
    ⟨⟨hσ.typed.store, hσ.typed.frames.nest⟩, hσ.inStep.nest⟩
  refine .nested ((Range.matches_run hinvoke hc hf hany hcode hload hi (hrounds stack) hnest).mono
    fun flow τ s hover => ?_)
  obtain ⟨rfl, sy₁, g', st', rfl, hout, hstep⟩ := hover
  exact ⟨g', st', rfl, (hstep.unnest hout).of_sameNames (hout.unnest.symm.trans hsy)⟩

end

end

end TinyScript.Bytecode
