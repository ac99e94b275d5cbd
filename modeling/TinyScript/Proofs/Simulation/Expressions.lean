import TinyScript.Proofs.Simulation.Codable
import TinyScript.Proofs.Simulation.Loading
import TinyScript.Proofs.Simulation.Operators
import TinyScript.Proofs.Simulation.Variables
import TinyScript.Proofs.Typing.Expressions

/-!
# Expressions are matched by their code

Where the chunk of a checked and fitted expression without `any` is loaded, the machine does what the
evaluation of the expression does (`Expr.computes_eval`): it leaves the mirror image of the value on the
stack, or meets the same panic. Variables are read where the table of names says.
-/

namespace TinyScript.Bytecode

/-- What an expression can read: a machine that keeps to its types, with variables that are mirrored in the
slots of the table, and mirrored storage. -/
structure Reads (Θ : StoreTy) (G : Vars) (L : List Scoping) (sy : Symbols) (σ : Machine) (g : Array Cell)
    (st : Store Cell) : Prop where
  typed : MachineTyped Θ G L σ
  sees : Sees sy σ.frames g
  abreast : Abreast σ st

/-- The code from place `p` to place `q` computes what an evaluation does. The cells that it leaves on the
stack are related to the result by `R`. -/
def Computes {α : Type} (a : Assembly) (G : Vars) (L : List Scoping) (sy : Symbols) (g : Array Cell)
    (p q : Nat) (m : Eval α) (R : StoreTy → α → List Cell → Prop) : Prop :=
  ∀ (Θ : StoreTy) (σ : Machine) (st : Store Cell) (stack : List Cell), Reads Θ G L sy σ g st →
    Matches a m σ ⟨p, stack, g, st⟩ fun x σ' s => ∃ Θ' cs st', s = ⟨q, cs ++ stack, g, st'⟩ ∧ Θ ≤ Θ' ∧
      σ'.frames = σ.frames ∧ Reads Θ' G L sy σ' g st' ∧ R Θ' x cs

/-- The cell that stands for a number that can be left out, as which `missing` counts. -/
def NumberOr (missing x : Float) (cs : List Cell) : Prop :=
  ∃ o, cs = [Acts.bound o] ∧ x = o.getD missing

/-- The keys of a map literal with the cells of their values, which make a map that mirrors `ps` out of one
that mirrors `done`. -/
def PairsImage (n : Nat) (done ps : Pairs Value) (cs : List Cell) : Prop :=
  ∃ qs : List (String × Cell), cs = (qs.flatMap fun (key, c) => [.str key, c]).reverse ∧ qs.length = n ∧
    ∀ q, MirrorPairs done q → MirrorPairs ps (qs.foldl (fun q (key, c) => q.insert key c) q)

section
variable {a : Assembly} {G : Vars} {L : List Scoping} {sy : Symbols} {g : Array Cell} {p q : Nat}

/-- A safe evaluation is matched if its result and its effect are. -/
theorem Computes.of_safe {α : Type} {m : Eval α} {T : StoreTy → α → Prop} {R : α → List Cell → Prop}
    (hsafe : ∀ Θ, Safe Θ G L m T)
    (h : ∀ Θ σ st stack, Reads Θ G L sy σ g st →
      Matches a m σ ⟨p, stack, g, st⟩ (Ends σ q stack g R)) :
    Computes a G L sy g p q m fun Θ x cs => T Θ x ∧ R x cs := by
  intro Θ σ st stack hσ
  refine ((h Θ σ st stack hσ).typed (hsafe Θ) hσ.typed).mono fun x σ' s hx => ?_
  obtain ⟨⟨cs, st', rfl, hframes, habreast, hR⟩, Θ', K, hle, rfl, htyped, hT⟩ := hx
  exact ⟨Θ', cs, st', rfl, hle, hframes, ⟨htyped, hframes ▸ hσ.sees, habreast⟩, hT, hR⟩

/-- What comes after a computation. -/
theorem Computes.bind {α β : Type} {m : Eval α} {f : α → Eval β} {R : StoreTy → α → List Cell → Prop}
    {Θ : StoreTy} {σ : Machine} {st : Store Cell} {stack : List Cell} {Q : β → Machine → Conf → Prop}
    (hm : Computes a G L sy g p q m R) (hσ : Reads Θ G L sy σ g st)
    (hf : ∀ Θ' x cs σ' st', Θ ≤ Θ' → σ'.frames = σ.frames → Reads Θ' G L sy σ' g st' → R Θ' x cs →
      Matches a (f x) σ' ⟨q, cs ++ stack, g, st'⟩ Q) :
    Matches a (m >>= f) σ ⟨p, stack, g, st⟩ Q := by
  refine (hm Θ σ st stack hσ).bind fun x σ' s hx => ?_
  obtain ⟨Θ', cs, st', rfl, hle, hframes, hreads, hR⟩ := hx
  exact hf Θ' x cs σ' st' hle hframes hreads hR

/-- The number that a value of type `num` is. -/
theorem Computes.number {m : Eval Value} {e : Expr} {token : Token} (hty : e.ty.same .num)
    (hm : Computes a G L sy g p q m fun Θ v cs => ValueOf Θ v e ∧ Image v cs) :
    Computes a G L sy g p q (m >>= fun v => Eval.located token v.number) fun _ y cs => cs = [.num y] := by
  intro Θ σ st stack hσ
  refine hm.bind hσ fun Θ' v cs σ' st' hle hframes hσ' hv => ?_
  obtain ⟨hv, c, rfl, hvc⟩ := hv
  obtain ⟨y, rfl⟩ := hv.hasType.num_inv (Ty.kind_eq_of_same hty)
  cases hvc
  exact .located (.pure ⟨Θ', [.num y], st', rfl, hle, hframes, hσ', rfl⟩)

/-- An operation that changes no variable comes after others that change none. -/
theorem Matches.endsFrom {α : Type} {m : Eval α} {σ σ' : Machine} {s : Conf} {stack : List Cell}
    {R : α → List Cell → Prop} (hframes : σ'.frames = σ.frames) (h : Matches a m σ' s (Ends σ' q stack g R)) :
    Matches a m σ' s (Ends σ q stack g R) :=
  h.mono fun _ _ _ ⟨cs, st, hs, hf, habreast, hR⟩ => ⟨cs, st, hs, hf.trans hframes, habreast, hR⟩

end

section
variable {F : Sigs} {G : Vars} {L : List Scoping} {invoke : Invoke} {a : Assembly} {sy : Symbols}
  {g : Array Cell} {x : Nat}

mutual

theorem Expr.computes_eval (hinvoke : SafeInvoke F G invoke) {k p : Nat} (e : Expr)
    (hc : e.Checked F (varTy? G L)) (hf : e.fitted F)
    (hany : e.anyFree) (hcode : e.Codable sy) (hload : (exprChunk sy e).Loaded a k p x) :
    Computes a G L sy g p (p + (exprChunk sy e).size) (e.eval invoke)
      fun Θ v cs => ValueOf Θ v e ∧ Image v cs := by
  refine .of_safe (fun Θ => Expr.safe_eval hinvoke e hc hf) fun Θ σ st stack hσ => ?_
  match e with
  | .num m y | .str m y =>
    obtain ⟨hi, hk⟩ := hload.const
    exact .image hσ.abreast (.constant hi hk) (by constructor)
  | .bool m b =>
    cases b with
    | true => exact .image hσ.abreast (.pushed hload.instr fun _ _ => rfl) (.bool true)
    | false => exact .image hσ.abreast (.pushed hload.instr fun _ _ => rfl) (.bool false)
  | .var m name =>
    obtain ⟨slot, hslot⟩ := hcode
    obtain ⟨v, c, hv, hcell, hvc⟩ := hσ.sees name slot hslot
    have hi := hload.instr
    rw [hslot] at hi
    exact .located (.lookup hv (.getGlobal hi hcell) ⟨[c], st, rfl, rfl, hσ.abreast, c, rfl, hvc⟩)
  | .array m layout elems =>
    obtain ⟨hty, hc⟩ := hc
    simp only [Expr.fitted, Bool.and_eq_true] at hf
    simp only [Expr.anyFree, Bool.and_eq_true] at hany
    obtain ⟨hlist, hi⟩ := hload.seq (closed_listChunk sy elems).regular
    refine .located ((Expr.computes_evalList hinvoke elems #[] hc hf.2 hany.2 hcode hlist).bind hσ
      fun Θ' vs cs σ' st' _ hframes hσ' hcs => ?_)
    obtain ⟨hlen, hvs⟩ := hcs
    have hmirrors : List.Forall₂ Mirrors vs.toList cs.reverse.toArray.toList := hvs [] .nil
    refine .endsFrom hframes (.newArray hσ'.abreast hmirrors ?_)
    have hi := hi.instr
    have hn : elems.length = cs.reverse.length := by rw [List.length_reverse, hlen]
    rw [hn] at hi
    have hlead : Leads a ⟨_, cs.reverse.reverse ++ stack, g, st'⟩ _ := .array hi
    rwa [List.reverse_reverse] at hlead
  | .map m layout pairs =>
    obtain ⟨hty, hc⟩ := hc
    simp only [Expr.fitted, Bool.and_eq_true] at hf
    simp only [Expr.anyFree, Bool.and_eq_true] at hany
    obtain ⟨hlist, hi⟩ := hload.seq (closed_pairsChunk sy pairs).regular
    refine .located ((Expr.computes_evalPairs hinvoke pairs .empty hc hf.2 hany.2 hcode hlist).bind hσ
      fun Θ' ps cs σ' st' _ hframes hσ' hcs => ?_)
    obtain ⟨qs, rfl, hlen, hps⟩ := hcs
    have hi := hi.instr
    rw [← hlen] at hi
    exact .endsFrom hframes (.newMap hσ'.abreast (hps _ .empty) (.map hi))
  | .unary m op operand =>
    obtain ⟨hop, -, hc⟩ := hc
    simp only [Expr.anyFree, Bool.and_eq_true] at hany
    rw [exprChunk] at hload ⊢
    rw [Chunk.add_size_seq]
    obtain ⟨hoperand, hi⟩ := hload.seq (closed_exprChunk sy operand).regular
    refine .located ((Expr.computes_eval hinvoke operand hc hf hany.2 hcode hoperand).bind hσ
      fun Θ' v cs σ' st' _ hframes hσ' hv => ?_)
    obtain ⟨hv, c, rfl, hvc⟩ := hv
    exact .endsFrom hframes (matches_unary hop hv.hasType hvc hσ'.abreast hi.instr)
  | .binary m op tight left right =>
    obtain ⟨hop, hcl, hcr⟩ := hc
    simp only [Expr.fitted, Bool.and_eq_true] at hf
    simp only [Expr.anyFree, Bool.and_eq_true] at hany
    obtain ⟨⟨-, hfl⟩, hfr⟩ := hf
    obtain ⟨⟨-, hal⟩, har⟩ := hany
    obtain ⟨hcodel, hcoder, hop'⟩ := hcode
    by_cases hand : op = .and
    · subst hand
      obtain ⟨hleft, hskip, hright, hend, hfalse⟩ :=
        hload.andAlso (closed_exprChunk sy left) (closed_exprChunk sy right)
      have hq : p + (exprChunk sy (.binary m .and tight left right)).size =
          p + (exprChunk sy left).size + 3 + (exprChunk sy right).size + 4 := by
        simp only [exprChunk, Chunk.andAlso]
        omega
      rw [hq]
      refine .located ((Expr.computes_eval hinvoke left hcl hfl hal hcodel hleft).bind hσ
        fun Θ₁ v cs σ₁ st₁ _ hframes₁ hσ₁ hv => ?_)
      obtain ⟨hv, c, rfl, hvc⟩ := hv
      obtain ⟨b, rfl⟩ := hv.hasType.bool_inv (Ty.kind_eq_of_same hop.1)
      cases hvc
      refine .lead (.jumpNotTruthy hskip) ?_
      cases b with
      | false => exact .endsFrom hframes₁ (.image hσ₁.abreast (.pushed hfalse fun _ _ => rfl) (.bool false))
      | true =>
        refine (Expr.computes_eval hinvoke right hcr hfr har hcoder hright).bind hσ₁
          fun Θ₂ w cs σ₂ st₂ _ hframes₂ hσ₂ hw => ?_
        obtain ⟨hw, d, rfl, hwd⟩ := hw
        obtain ⟨b, rfl⟩ := hw.hasType.bool_inv (Ty.kind_eq_of_same hop.2.1)
        cases hwd
        exact .endsFrom (hframes₂.trans hframes₁) (.image hσ₂.abreast (.jump hend) (.bool b))
    by_cases hor : op = .or
    · subst hor
      obtain ⟨hleft, hskip, htrue, hend, hright⟩ := hload.orElse (closed_exprChunk sy left)
      have hq : p + (exprChunk sy (.binary m .or tight left right)).size =
          p + (exprChunk sy left).size + 7 + (exprChunk sy right).size := by
        simp only [exprChunk, Chunk.orElse]
        omega
      rw [hq]
      refine .located ((Expr.computes_eval hinvoke left hcl hfl hal hcodel hleft).bind hσ
        fun Θ₁ v cs σ₁ st₁ _ hframes₁ hσ₁ hv => ?_)
      obtain ⟨hv, c, rfl, hvc⟩ := hv
      obtain ⟨b, rfl⟩ := hv.hasType.bool_inv (Ty.kind_eq_of_same hop.1)
      cases hvc
      refine .lead (.jumpNotTruthy hskip) ?_
      cases b with
      | true =>
        exact .endsFrom hframes₁ (.image hσ₁.abreast
          ((Leads.pushed htrue fun _ _ => rfl).trans (.jump hend)) (.bool true))
      | false =>
        refine (Expr.computes_eval hinvoke right hcr hfr har hcoder hright).bind hσ₁
          fun Θ₂ w cs σ₂ st₂ _ hframes₂ hσ₂ hw => ?_
        obtain ⟨hw, d, rfl, hwd⟩ := hw
        obtain ⟨b, rfl⟩ := hw.hasType.bool_inv (Ty.kind_eq_of_same hop.2.1)
        cases hwd
        exact .endsFrom (hframes₂.trans hframes₁) (.image hσ₂.abreast (.refl _) (.bool b))
    obtain ⟨code, hcode⟩ := hop' hand hor
    rw [exprChunk_binary hand hor, hcode, Chunk.seq_assoc] at hload ⊢
    rw [Chunk.add_size_seq, Chunk.add_size_seq]
    obtain ⟨hleft, hrest⟩ := hload.seq (closed_exprChunk sy left).regular
    obtain ⟨hright, hi⟩ := hrest.seq (closed_exprChunk sy right).regular
    refine .located ((Expr.computes_eval hinvoke left hcl hfl hal hcodel hleft).bind hσ
      fun Θ₁ v cs σ₁ st₁ _ hframes₁ hσ₁ hv => ?_)
    obtain ⟨hv, c, rfl, hvc⟩ := hv
    have hsettled : op.settled? v = none := by
      cases op <;> first | contradiction | rfl
    rw [hsettled]
    refine (Expr.computes_eval hinvoke right hcr hfr har hcoder hright).bind hσ₁
      fun Θ₂ w cs σ₂ st₂ hle hframes₂ hσ₂ hw => ?_
    obtain ⟨hw, d, rfl, hwd⟩ := hw
    exact .endsFrom (hframes₂.trans hframes₁) (matches_binary hop hand hor (Expr.anyFree_ty hal) hcode
      hσ₂.typed.store (hv.hasType.mono hle) hw.hasType hvc hwd hσ₂.abreast hi.instr)
  | .index m left key =>
    obtain ⟨hty, hcl, hck⟩ := hc
    simp only [Expr.fitted, Bool.and_eq_true] at hf
    simp only [Expr.anyFree, Bool.and_eq_true] at hany
    rw [exprChunk, Chunk.seq_assoc] at hload ⊢
    rw [Chunk.add_size_seq, Chunk.add_size_seq]
    obtain ⟨hleft, hrest⟩ := hload.seq (closed_exprChunk sy left).regular
    obtain ⟨hkey, hi⟩ := hrest.seq (closed_exprChunk sy key).regular
    refine .located ((Expr.computes_eval hinvoke left hcl hf.1 hany.1.2 hcode.1 hleft).bind hσ
      fun Θ₁ v cs₁ σ₁ st₁ _ hframes₁ hσ₁ hv =>
        (Expr.computes_eval hinvoke key hck hf.2 hany.2 hcode.2 hkey).bind hσ₁
      fun Θ₂ w cs₂ σ₂ st₂ hle hframes₂ hσ₂ hw => ?_)
    obtain ⟨hv, c, rfl, hvc⟩ := hv
    obtain ⟨hw, d, rfl, hwd⟩ := hw
    exact .endsFrom (hframes₂.trans hframes₁)
      (matches_at hty (hv.hasType.mono hle) hw.hasType hvc hwd hσ₂.abreast hi.instr)
  | .slice m left start stop =>
    obtain ⟨hk, -, hcl, hc₁, hc₂⟩ := hc
    simp only [Expr.fitted, Bool.and_eq_true] at hf
    simp only [Expr.anyFree, Bool.and_eq_true] at hany
    rw [exprChunk, Chunk.seq_assoc, Chunk.seq_assoc] at hload ⊢
    rw [Chunk.add_size_seq, Chunk.add_size_seq, Chunk.add_size_seq]
    obtain ⟨hleft, hrest⟩ := hload.seq (closed_exprChunk sy left).regular
    obtain ⟨hstart, hrest⟩ := hrest.seq (closed_optionChunk sy start).regular
    obtain ⟨hstop, hi⟩ := hrest.seq (closed_optionChunk sy stop).regular
    refine .located ((Expr.computes_eval hinvoke left hcl hf.1.1 hany.1.1.2 hcode.1 hleft).bind hσ
      fun Θ₁ v cs₁ σ₁ st₁ _ hframes₁ hσ₁ hv =>
      (Expr.computes_evalNumber? hinvoke start hc₁ hf.1.2 hany.1.2 hcode.2.1 hstart).bind hσ₁
      fun Θ₂ y cs₂ σ₂ st₂ hle₂ hframes₂ hσ₂ hy =>
      (Expr.computes_evalNumber? hinvoke stop hc₂ hf.2 hany.2 hcode.2.2 hstop).bind hσ₂
      fun Θ₃ z cs₃ σ₃ st₃ hle₃ hframes₃ hσ₃ hz => ?_)
    obtain ⟨hv, c, rfl, hvc⟩ := hv
    obtain rfl : cs₂ = [Acts.bound y] := hy
    obtain rfl : cs₃ = [Acts.bound z] := hz
    exact .endsFrom (hframes₃.trans (hframes₂.trans hframes₁))
      (matches_slice hk (hv.hasType.mono (StoreTy.le_trans hle₂ hle₃)) hvc hσ₃.abreast hi.instr)
  | .dot m left key =>
    obtain ⟨hk, -, hc⟩ := hc
    simp only [Expr.anyFree, Bool.and_eq_true] at hany
    rw [exprChunk, Chunk.seq_assoc] at hload ⊢
    rw [Chunk.add_size_seq, Chunk.add_size_seq]
    obtain ⟨hleft, hrest⟩ := hload.seq (closed_exprChunk sy left).regular
    obtain ⟨hkey, hi⟩ := hrest.seq (Chunk.closed_const _).regular
    refine .located ((Expr.computes_eval hinvoke left hc hf hany.2 hcode hleft).bind hσ
      fun Θ' v cs σ' st' _ hframes hσ' hv => ?_)
    obtain ⟨hv, c, rfl, hvc⟩ := hv
    obtain ⟨hconst, hk'⟩ := hkey.const
    exact .endsFrom hframes (.lead (.constant hconst hk') (matches_field hk hv.hasType hvc hσ'.abreast hi.instr))
  | .group m inner =>
    simp only [Expr.fitted, Bool.and_eq_true] at hf
    simp only [Expr.anyFree, Bool.and_eq_true] at hany
    refine .located (((Expr.computes_eval hinvoke inner hc hf.2 hany.2 hcode hload) Θ σ st stack hσ).mono
      fun v σ' s hv => ?_)
    obtain ⟨Θ', cs, st', hs, -, hframes, hσ', -, himage⟩ := hv
    exact ⟨cs, st', hs, hframes, hσ'.abreast, himage⟩
  | .any m inner =>
    exact absurd (Ty.kind_eq_of_same hc.1) (Ty.kind_ne_any (Expr.anyFree_ty hany))
  | .call .. | .assert .. => exact False.elim hcode

/-- The cells of a list of expressions lie on the stack, the last one on top. -/
theorem Expr.computes_evalList (hinvoke : SafeInvoke F G invoke) {k p : Nat} (es : List Expr)
    (done : Array Value)
    (hc : Expr.AllChecked F (varTy? G L) es) (hf : Expr.allFitted F es) (hany : Expr.allAnyFree es)
    (hcode : Expr.AllCodable sy es) (hload : (listChunk sy es).Loaded a k p x) :
    Computes a G L sy g p (p + (listChunk sy es).size) (Expr.evalList invoke done es)
      fun _ vs cs => cs.length = es.length ∧ ∀ ds : List Cell, List.Forall₂ Mirrors done.toList ds →
        List.Forall₂ Mirrors vs.toList (ds ++ cs.reverse) := by
  intro Θ σ st stack hσ
  match es with
  | [] => exact .pure ⟨Θ, [], st, rfl, StoreTy.le_refl Θ, rfl, hσ, rfl, fun ds h => by simpa using h⟩
  | e :: es =>
    simp only [Expr.allFitted, Bool.and_eq_true] at hf
    simp only [Expr.allAnyFree, Bool.and_eq_true] at hany
    obtain ⟨hfirst, hrest⟩ := hload.seq (closed_exprChunk sy e).regular
    refine (Expr.computes_eval hinvoke e hc.1 hf.1 hany.1 hcode.1 hfirst).bind hσ
      fun Θ₁ v cs₁ σ₁ st₁ hle₁ hframes₁ hσ₁ hv => ?_
    obtain ⟨-, c, rfl, hvc⟩ := hv
    refine (Expr.computes_evalList hinvoke es (done.push v) hc.2 hf.2 hany.2 hcode.2 hrest Θ₁ σ₁ st₁ _
      hσ₁).mono
      fun vs σ₂ s hvs => ?_
    obtain ⟨Θ₂, cs, st₂, rfl, hle₂, hframes₂, hσ₂, hlen, hvs⟩ := hvs
    refine ⟨Θ₂, cs ++ [c], st₂, ?_, StoreTy.le_trans hle₁ hle₂, hframes₂.trans hframes₁, hσ₂, ?_, fun ds hds => ?_⟩
    · simp only [listChunk, Chunk.seq, Nat.add_assoc, List.append_assoc]
    · rw [List.length_append, hlen]
      rfl
    · have hpush : List.Forall₂ Mirrors (done.push v).toList (ds ++ [c]) := by
        rw [Array.toList_push]
        exact List.rel_append hds (.cons hvc .nil)
      simpa using hvs _ hpush

theorem Expr.computes_evalPairs (hinvoke : SafeInvoke F G invoke) {k p : Nat} (ps : List (String × Expr))
    (done : Pairs Value)
    (hc : Expr.PairsChecked F (varTy? G L) ps) (hf : Expr.pairsFitted F ps) (hany : Expr.pairsAnyFree ps)
    (hcode : Expr.PairsCodable sy ps) (hload : (pairsChunk sy ps).Loaded a k p x) :
    Computes a G L sy g p (p + (pairsChunk sy ps).size) (Expr.evalPairs invoke done ps)
      fun _ vs cs => PairsImage ps.length done vs cs := by
  intro Θ σ st stack hσ
  match ps with
  | [] => exact .pure ⟨Θ, [], st, rfl, StoreTy.le_refl Θ, rfl, hσ, [], rfl, rfl, fun _ h => h⟩
  | (key, e) :: ps =>
    simp only [Expr.pairsFitted, Bool.and_eq_true] at hf
    simp only [Expr.pairsAnyFree, Bool.and_eq_true] at hany
    rw [pairsChunk, Chunk.seq_assoc] at hload ⊢
    rw [Chunk.add_size_seq, Chunk.add_size_seq]
    obtain ⟨hkey, hrest⟩ := hload.seq (Chunk.closed_const _).regular
    obtain ⟨hfirst, hrest⟩ := hrest.seq (closed_exprChunk sy e).regular
    obtain ⟨hconst, hk⟩ := hkey.const
    refine .lead (.constant hconst hk)
      ((Expr.computes_eval hinvoke e hc.1 hf.1 hany.1 hcode.1 hfirst).bind hσ
      fun Θ₁ v cs₁ σ₁ st₁ hle₁ hframes₁ hσ₁ hv => ?_)
    obtain ⟨-, c, rfl, hvc⟩ := hv
    refine (Expr.computes_evalPairs hinvoke ps (done.insert key v) hc.2 hf.2 hany.2 hcode.2 hrest Θ₁ σ₁ st₁ _
      hσ₁).mono
      fun vs σ₂ s hvs => ?_
    obtain ⟨Θ₂, cs, st₂, rfl, hle₂, hframes₂, hσ₂, qs, rfl, hlen, hqs⟩ := hvs
    refine ⟨Θ₂, _, st₂, ?_, StoreTy.le_trans hle₁ hle₂, hframes₂.trans hframes₁, hσ₂, (key, c) :: qs, rfl,
      congrArg (· + 1) hlen, fun q hq => hqs _ (hq.insert key hvc)⟩
    simp

theorem Expr.computes_evalNumber? (hinvoke : SafeInvoke F G invoke) {k p : Nat} (e : Option Expr)
    (hc : Expr.BoundChecked F (varTy? G L) e)
    (hf : Expr.boundFitted F e) (hany : Expr.optionAnyFree e) (hcode : Expr.BoundCodable sy e)
    (hload : (optionChunk sy e).Loaded a k p x) :
    Computes a G L sy g p (p + (optionChunk sy e).size) (Expr.evalNumber? invoke e)
      fun _ o cs => cs = [Acts.bound o] := by
  intro Θ σ st stack hσ
  match e with
  | none =>
    exact .lead (.pushed hload.instr fun _ _ => rfl)
      (.pure ⟨Θ, [.none], st, rfl, StoreTy.le_refl Θ, rfl, hσ, rfl⟩)
  | some e =>
    have hnumber : Computes a G L sy g p _ (e.eval invoke >>= fun v => Eval.located e.token v.number) _ :=
      (Expr.computes_eval hinvoke e hc.2 hf hany hcode hload).number hc.1
    unfold Expr.evalNumber?
    rw [← bind_assoc]
    refine hnumber.bind hσ fun Θ' y cs σ' st' hle hframes hσ' hy => ?_
    exact .pure ⟨Θ', cs, st', rfl, hle, hframes, hσ', hy⟩

end

variable (hinvoke : SafeInvoke F G invoke)
include hinvoke

theorem Expr.computes_evalNumber {k p : Nat} (e : Expr) (hty : e.ty.same .num)
    (hc : e.Checked F (varTy? G L)) (hf : e.fitted F) (hany : e.anyFree) (hcode : e.Codable sy)
    (hload : (exprChunk sy e).Loaded a k p x) :
    Computes a G L sy g p (p + (exprChunk sy e).size) (e.evalNumber invoke) fun _ y cs => cs = [.num y] :=
  (Expr.computes_eval hinvoke e hc hf hany hcode hload).number hty

theorem Expr.computes_evalNumberOr {k p : Nat} (missing : Float) (e : Option Expr)
    (hc : Expr.BoundChecked F (varTy? G L) e) (hf : Expr.boundFitted F e) (hany : Expr.optionAnyFree e)
    (hcode : Expr.BoundCodable sy e) (hload : (optionChunk sy e).Loaded a k p x) :
    Computes a G L sy g p (p + (optionChunk sy e).size) (Expr.evalNumberOr invoke missing e)
      fun _ => NumberOr missing := by
  intro Θ σ st stack hσ
  cases e with
  | none =>
    exact .lead (.pushed hload.instr fun _ _ => rfl)
      (.pure ⟨Θ, [.none], st, rfl, StoreTy.le_refl Θ, rfl, hσ, none, rfl, rfl⟩)
  | some e =>
    refine (Expr.computes_evalNumber hinvoke e hc.1 hc.2 hf hany hcode hload Θ σ st stack hσ).mono
      fun y σ' s hy => ?_
    obtain ⟨Θ', cs, st', hs, hle, hframes, hσ', rfl⟩ := hy
    exact ⟨Θ', _, st', hs, hle, hframes, hσ', some y, rfl, rfl⟩

end

end TinyScript.Bytecode
