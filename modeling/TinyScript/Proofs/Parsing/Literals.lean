import TinyScript.Parsing.Expression
import TinyScript.Proofs.Parsing.Steps
import TinyScript.Proofs.Typing.Retyping

/-!
# Calls and literals that are read are checked

Every construct is a parser over the parser for what is nested in it, so each has a lemma that takes
the claim for what is nested.
-/

namespace TinyScript

namespace Ty

theorem proper_mix {a b below : Ty} (ha : a.proper) (hb : b.proper) (hbelow : below.proper) :
    (mix a b below).proper := by
  unfold mix
  split
  · exact ha
  · split
    · rfl
    · split
      · next hk =>
        rw [Bool.and_eq_true] at hk
        split
        · exact ha
        · split
          · exact hb
          · simpa [proper, hbelow, isComposite] using hk.1
      · rfl

theorem proper_joinAt {a b : Ty} (swapped : Bool) (ha : a.proper) (hb : b.proper) :
    (joinAt swapped a b).proper := by
  induction a generalizing swapped b with
  | leaf k f =>
    cases b <;> unfold joinAt <;> split <;> exact proper_mix ‹_› ‹_› rfl
  | of k f s ih =>
    cases b with
    | leaf => unfold joinAt; split <;> exact proper_mix ‹_› ‹_› rfl
    | of l g t =>
      have hbelow := ih (!swapped) (proper_elem ha) (proper_elem hb)
      unfold joinAt
      dsimp only
      split
      · exact proper_mix hb ha hbelow
      · exact proper_mix ha hb hbelow

theorem proper_combine {ts : List Ty} (h : ∀ t ∈ ts, t.proper) : (combine ts).proper := by
  cases ts with
  | nil => rfl
  | cons t ts =>
    obtain ⟨ht, hts⟩ := List.forall_mem_cons.1 h
    unfold combine
    induction ts generalizing t with
    | nil => exact ht
    | cons u ts ih =>
      obtain ⟨hu, hts⟩ := List.forall_mem_cons.1 hts
      have hjoin := proper_joinAt false ht hu
      exact ih (t.join u) (List.forall_mem_cons.2 ⟨hjoin, hts⟩) hjoin hts

theorem proper_of_result {t : Ty} (h : t.settled ∨ t.same none) : t.proper := by
  rcases h with h | h
  · exact proper_of_settled h
  · obtain ⟨f, rfl⟩ := same_leaf.1 h
    rfl

end Ty

namespace Parsing

/-- Only arrays and maps have element types in what is declared, and results are of types that a
program can write. -/
structure Outline.Proper (o : Outline) : Prop where
  vars : ∀ name τ, o.scopes.ty? name = some τ → τ.proper
  returns : ∀ τ, o.scopes.result? = some τ → τ.settled ∨ τ.same .none
  result : ∀ name sig, o.func? name = some sig → sig.result.settled ∨ sig.result.same .none
  params : ∀ name sig, o.func? name = some sig → ∀ x ∈ sig.params, x.ty.proper
  variadic : ∀ name sig, o.func? name = some sig → ∀ x, sig.variadic = some x → x.ty.proper

/-- The expression is checked where `o` is declared. -/
structure ReadIn (o : Outline) (e : Expr) : Prop where
  checked : e.Checked o.func? o.scopes.ty?
  proper : e.ty.proper

section
variable {φ : Prop} {o : Outline} {self : Nested} {e : Expr} {es : List Expr}

theorem ReadIn.wrap {target : Ty} (h : ReadIn o e) (ht : target.proper) : ReadIn o (e.wrap target) :=
  ⟨h.checked.wrap ht, Expr.proper_wrap h.proper ht⟩

theorem ReadIn.infer (h : ReadIn o e) : ReadIn o e.infer :=
  ⟨h.checked.infer, Expr.proper_infer h.proper⟩

theorem allChecked_of (h : ∀ e ∈ es, ReadIn o e) : Expr.AllChecked o.func? o.scopes.ty? es := by
  induction es with
  | nil => trivial
  | cons e es ih =>
    obtain ⟨he, hes⟩ := List.forall_mem_cons.1 h
    exact ⟨he.checked, ih hes⟩

theorem pairsChecked_of {ps : List (String × Expr)} (h : ∀ p ∈ ps, ReadIn o p.2) :
    Expr.PairsChecked o.func? o.scopes.ty? ps := by
  induction ps with
  | nil => trivial
  | cons p ps ih =>
    obtain ⟨he, hes⟩ := List.forall_mem_cons.1 h
    exact ⟨he.checked, ih hes⟩

variable (hself : ∀ p, Reads True o (self p) (ReadIn o))

/-! ### Calls -/

theorem atListEnd_keeps : Keeps φ o atListEnd fun _ => True := by
  refine Keeps.look.bind fun k => ?_
  split
  · exact .pure fun _ => trivial
  · exact .pure fun _ => trivial
  · exact .pure fun _ => trivial
  · exact (Keeps.look (f := State.atLineEnd)).weaken id fun _ _ _ => trivial

theorem reportArguments_keeps (name : String) (index : Nat) (params : List Var) (args : List Expr) :
    Keeps φ o (reportArguments name index params args) fun _ => True := by
  induction params generalizing φ index args with
  | nil => cases args <;> exact .pure fun _ => trivial
  | cons p params ih =>
    cases args with
    | nil => exact .pure fun _ => trivial
    | cons e args =>
      unfold reportArguments
      dsimp only
      split
      · exact ih (index + 1) args
      · exact (Keeps.reportAt _ _ (A := fun _ => False)).bind fun _ => ih (index + 1) args

/-- The arguments of a call go into its parameters. -/
theorem checkArguments_keeps (signature : Signature) (args : List Expr)
    (hparams : φ → ∀ x ∈ signature.params, x.ty.proper)
    (hvariadic : φ → ∀ x, signature.variadic = some x → x.ty.proper)
    (h : φ → ∀ e ∈ args, ReadIn o e) :
    Keeps φ o (checkArguments signature args) fun args' =>
      (∀ e ∈ args', ReadIn o e) ∧ signature.TakesCount args'.length := by
  unfold checkArguments
  cases hvar : signature.variadic with
  | some rest =>
    have hall : Keeps φ o (args.forM fun e => do
        unless takesArgument rest.ty e.ty do
          reportAt e.token (.variadicType signature.name rest.ty e.ty)) fun _ => True :=
      .forM (fun e => (Keeps.unlessReport _ _).weaken id fun _ _ _ => trivial) args
    refine hall.bind fun _ => .pure fun hφ => ⟨fun e' he' => ?_, fun hnone => by rw [hvar] at hnone; cases hnone⟩
    obtain ⟨e, he, rfl⟩ := List.mem_map.1 he'
    exact (h hφ.1 e he).wrap (hvariadic hφ.1 rest hvar)
  | none =>
    dsimp only
    split
    · refine Keeps.state.bind fun s => (Keeps.reportAt _ _ (A := fun _ => False)).bind
        fun _ => .pure fun hφ => hφ.2.elim
    · next hlen =>
      have hlen := not_not.1 hlen
      refine (reportArguments_keeps _ _ _ _).bind fun _ => .pure fun hφ => ⟨fun e' he' => ?_, fun _ => ?_⟩
      · obtain ⟨i, hi, rfl⟩ := List.mem_iff_getElem.1 he'
        rw [List.length_zipWith, Nat.lt_min] at hi
        rw [List.getElem_zipWith]
        exact (h hφ.1 _ (List.getElem_mem hi.1)).wrap (hparams hφ.1 _ (List.getElem_mem hi.2))
      · rw [List.length_zipWith, hlen, Nat.min_self]

section
include hself

theorem spacedExpr_reads : Reads φ o (spacedExpr self) (ReadIn o) :=
  .withSpacing true (hself .lowest).known

theorem exprListWithin_reads (fuel : Nat) (done : Array Expr) (hdone : φ → ∀ e ∈ done.toList, ReadIn o e) :
    Reads φ o (exprListWithin self fuel done) fun es => ∀ e ∈ es, ReadIn o e := by
  induction fuel generalizing φ done with
  | zero => exact .pure hdone
  | succ fuel ih =>
    refine (Reads.lift atListEnd_keeps).bind fun b => ?_
    split
    · exact .pure fun h => hdone h.1
    · refine (spacedExpr_reads hself).bind fun e => (Reads.move State.moves_skipBlank).bind fun _ => ?_
      refine ih (done.push e) fun h e' he' => ?_
      rw [Array.toList_push, List.mem_append, List.mem_singleton] at he'
      rcases he' with he' | rfl
      · exact hdone h.1.1.1 e' he'
      · exact h.1.2

theorem exprList_reads : Reads φ o (exprList self) fun es => ∀ e ∈ es, ReadIn o e :=
  (Reads.lift Keeps.state).bind fun _ => exprListWithin_reads hself _ #[] fun _ e he => by cases he

variable (ho : o.Proper)
include ho

theorem call_reads : Reads φ o (call self) fun c => ∃ sig, o.func? c.name = some sig ∧
    c.result = sig.result ∧ sig.TakesCount c.args.length ∧ ∀ e ∈ c.args, ReadIn o e := by
  refine (Reads.look (f := State.cur)).bind fun token => (Reads.lift Keeps.state).bind fun s => ?_
  split
  · next sig hsig =>
    have hfunc {ψ : Prop} (h : (ψ ∧ s.outline = o)) : o.func? token.literal = some sig := h.2 ▸ hsig
    refine (Reads.move State.moves_advance).bind fun _ => (exprList_reads hself).bind fun args => ?_
    refine (Reads.lift (checkArguments_keeps sig args
      (fun h => ho.params _ sig (hfunc h.1.1)) (fun h => ho.variadic _ sig (hfunc h.1.1))
      fun h => h.2)).bind fun args' => .pure fun h => ?_
    exact ⟨sig, hfunc h.1.1.1, rfl, h.2.2, h.2.1⟩
  · exact .failure

theorem topLevel_reads : Reads φ o (topLevel self) (ReadIn o) := by
  refine (Reads.look (f := State.cur)).bind fun token =>
    (Reads.look (f := (·.isFunc token.literal))).bind fun b => ?_
  split
  · refine (call_reads hself ho).bind fun c => .pure fun h => ?_
    obtain ⟨sig, hsig, hresult, hcount, hargs⟩ := h.2
    refine ⟨⟨fun sig' hsig' => ?_, allChecked_of hargs⟩, ?_⟩
    · cases hsig.symm.trans hsig'
      exact ⟨hcount, hresult ▸ Ty.same_symm (Ty.same_fixed _)⟩
    · show c.result.fixed.proper
      rw [hresult, Ty.proper_fixed]
      exact Ty.proper_of_result (ho.result _ sig hsig)
  · exact (hself .lowest).known

end

/-! ### Literals -/

theorem layoutWithin_keeps (fuel : Nat) (done : Array LayoutItem) :
    Keeps φ o (layoutWithin fuel done) fun _ => True := by
  induction fuel generalizing φ done with
  | zero => exact .pure fun _ => trivial
  | succ fuel ih =>
    refine (Keeps.look (f := State.cur)).bind fun token => ?_
    split
    · exact (Keeps.move State.moves_advanceOne).bind fun _ => ih _
    · exact (Keeps.move State.moves_advanceOne).bind fun _ => (Keeps.expect .nl).bind fun _ =>
        (Keeps.move State.moves_advanceOne).bind fun _ => ih _
    · exact (Keeps.move State.moves_advanceOne).bind fun _ => ih _
    · exact .pure fun _ => trivial

theorem layoutItems_keeps (done : Array LayoutItem) :
    Keeps φ o (layoutItems done) fun _ => True :=
  Keeps.state.bind fun _ => layoutWithin_keeps _ done

section
include hself

theorem elementsWithin_reads (fuel : Nat) (layout : Array LayoutItem) (elems : Array Expr)
    (h : φ → ∀ e ∈ elems.toList, ReadIn o e) :
    Reads φ o (elementsWithin self fuel layout elems) fun r => ∀ e ∈ r.2, ReadIn o e := by
  induction fuel generalizing φ layout elems with
  | zero => exact .pure h
  | succ fuel ih =>
    refine Reads.look.bind fun k => ?_
    split
    · exact .pure fun hφ => h hφ.1
    · exact .pure fun hφ => h hφ.1
    · refine (spacedExpr_reads hself).bind fun e =>
        (Reads.lift (layoutItems_keeps _)).bind fun layout => ih layout (elems.push e) fun hφ e' he' => ?_
      rw [Array.toList_push, List.mem_append, List.mem_singleton] at he'
      rcases he' with he' | rfl
      · exact h hφ.1.1.1 e' he'
      · exact hφ.1.2

theorem arrayLiteral_reads : Reads φ o (arrayLiteral self) (ReadIn o) := by
  refine (Reads.look (f := State.cur)).bind fun token => (Reads.move State.moves_advance).bind fun _ =>
    (Reads.lift (layoutItems_keeps _)).bind fun layout => (Reads.lift Keeps.state).bind fun s =>
    (elementsWithin_reads hself _ _ _ fun _ e he => by cases he).bind fun r =>
    (Reads.require _).bind fun _ => (Reads.move State.moves_advance).bind fun _ => ?_
  dsimp only
  split
  · exact .pure fun _ => ⟨⟨rfl, trivial⟩, rfl⟩
  · refine .pure fun hφ => ?_
    have hread := hφ.1.1.2
    have helem : (Ty.combine (r.2.map Expr.ty)).proper := Ty.proper_combine fun t ht => by
      obtain ⟨e, he, rfl⟩ := List.mem_map.1 ht
      exact (hread e he).proper
    refine ⟨⟨Ty.same_refl _, allChecked_of fun e he => ?_⟩, by simpa [Expr.ty, Expr.mark, Ty.array,
      Ty.proper, Kind.isComposite] using helem⟩
    obtain ⟨e', he', rfl⟩ := List.mem_map.1 he
    exact (hread e' he').wrap helem

theorem pairsWithin_reads (fuel : Nat) (layout : Array LayoutItem) (pairs : Array (String × Expr))
    (h : φ → ∀ p ∈ pairs.toList, ReadIn o p.2) :
    Reads φ o (pairsWithin self fuel layout pairs) fun r => ∀ p ∈ r.2, ReadIn o p.2 := by
  induction fuel generalizing φ layout pairs with
  | zero => exact .pure h
  | succ fuel ih =>
    refine (Reads.look (f := State.cur)).bind fun token => ?_
    split
    · exact .pure fun hφ => h hφ.1
    · exact .pure fun hφ => h hφ.1
    · refine .ifFail (.fail _) <| (Reads.move State.moves_advance).bind fun _ =>
        (Reads.require _).bind fun _ => (Reads.move State.moves_advance).bind fun _ =>
        (spacedExpr_reads hself).bind fun e =>
        (Reads.lift (layoutItems_keeps _)).bind fun layout => ih layout _ fun hφ p hp => ?_
      rw [Array.toList_push, List.mem_append, List.mem_singleton] at hp
      rcases hp with hp | rfl
      · exact h hφ.1.1.1.1.1.1.1 p hp
      · exact hφ.1.2
    · exact .fail _

theorem mapLiteral_reads : Reads φ o (mapLiteral self) (ReadIn o) := by
  refine .withSpacing false <| (Reads.look (f := State.cur)).bind fun token =>
    (Reads.move State.moves_advance).bind fun _ =>
    (Reads.lift (layoutItems_keeps _)).bind fun layout => (Reads.lift Keeps.state).bind fun s =>
    (pairsWithin_reads hself _ _ _ fun _ e he => by cases he).bind fun r =>
    (Reads.require _).bind fun _ => (Reads.move State.moves_advanceOne).bind fun _ => ?_
  dsimp only
  split
  · exact .pure fun _ => ⟨⟨rfl, trivial⟩, rfl⟩
  · refine .pure fun hφ => ?_
    have hread := hφ.1.1.2
    have helem : (Ty.combine (r.2.map (·.2.ty))).proper := Ty.proper_combine fun t ht => by
      obtain ⟨p, hp, rfl⟩ := List.mem_map.1 ht
      exact (hread p hp).proper
    refine ⟨⟨Ty.same_refl _, pairsChecked_of fun p hp => ?_⟩, by simpa [Expr.ty, Expr.mark, Ty.map,
      Ty.proper, Kind.isComposite] using helem⟩
    obtain ⟨p', hp', rfl⟩ := List.mem_map.1 hp
    exact (hread p' hp').wrap helem

end

theorem numLiteral_reads : Reads φ o numLiteral (ReadIn o) := by
  refine (Reads.look (f := State.cur)).bind fun token => (Reads.move State.moves_advance).bind fun _ => ?_
  split
  · exact .pure fun _ => ⟨rfl, rfl⟩
  · exact .failAt _ _

end

end Parsing

end TinyScript
