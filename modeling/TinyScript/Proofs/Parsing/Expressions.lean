import TinyScript.Proofs.Parsing.Literals

/-!
# Expressions that are read are checked

The operands and operators of expressions, over the parser for what is nested in them, and the parser
for expressions that is tied from them.
-/

namespace TinyScript.Parsing

variable {φ : Prop} {o : Outline} {self : Nested} {left right : Expr}

/-! ### Operands of operators -/

theorem same_of_fits_leaf {t u : Ty} {k : Kind} (hk : k.isComposite = false) (h : t.fits u)
    (ht : t.same (.leaf k false)) : u.same (.leaf k false) := by
  obtain ⟨f, rfl⟩ := Ty.same_leaf.1 ht
  simp only [Ty.fits, Bool.or_eq_true, Bool.and_eq_true, beq_iff_eq] at h
  rcases h with h | ⟨rfl, hempty⟩
  · exact Ty.same_trans (Ty.same_symm h) ht
  · cases u with
    | leaf => cases hempty
    | of l g e =>
      have hl : l.isComposite := by
        rw [Ty.isEmpty, Bool.and_eq_true] at hempty
        exact hempty.1
      exact absurd hl (by simpa [Ty.kind] using hk)

theorem kind_resultType {op : BinaryOp} {l r : Ty} (hop : op.isComparison = false)
    (hk : l.kind = r.kind) : (resultType op l r).kind = l.kind := by
  rw [resultType, hop, if_neg (by simp)]
  split
  · exact hk.symm
  · split
    · exact Ty.kind_fixed l
    · rfl

theorem same_resultType {op : BinaryOp} {l r : Ty} {k : Kind} (hop : op.isComparison = false)
    (hl : l.same (.leaf k false)) (hr : r.same (.leaf k false)) :
    (resultType op l r).same (.leaf k false) := by
  rw [resultType, hop, if_neg (by simp)]
  split
  · exact hr
  · split
    · exact Ty.same_trans (Ty.same_symm (Ty.same_fixed l)) hl
    · exact hl

/-- Operands that nothing is wrong with are right. -/
theorem takes_of_operandProblem? {op : BinaryOp} {l r : Ty} (h : operandProblem? op l r = none) :
    op.Takes l r (resultType op l r) := by
  unfold operandProblem? at h
  split at h
  · cases h
  next hfits =>
  have hfits : l.fits r := by simpa using hfits
  have hleaf {k : Kind} (hop : op.isComparison = false) (hk : k.isComposite = false)
      (hl : l.same (.leaf k false)) : l.same (.leaf k false) ∧ r.same (.leaf k false) ∧
        (resultType op l r).same (.leaf k false) :=
    have hr := same_of_fits_leaf hk hfits hl
    ⟨hl, hr, same_resultType hop hl hr⟩
  have hboth {k : Kind} (hk : k.isComposite = false) (hl : l.same (.leaf k false)) :
      l.same (.leaf k false) ∧ r.same (.leaf k false) :=
    ⟨hl, same_of_fits_leaf hk hfits hl⟩
  cases op with
  | add =>
    simp only [ite_eq_left_iff, reduceCtorEq, imp_false, not_not, Bool.or_eq_true,
      decide_eq_true_eq] at h
    rcases h with (h | h) | h
    · exact .inl (hleaf rfl rfl h)
    · exact .inr (.inl (hleaf rfl rfl h))
    · have hk := Ty.kind_eq_of_fits hfits
      exact .inr (.inr ⟨h, hk ▸ h, (kind_resultType rfl hk).trans h⟩)
  | sub | mul | div | rem =>
    simp only [ite_eq_left_iff, reduceCtorEq, imp_false, not_not] at h
    exact hleaf rfl rfl h
  | lt | gt | ltEq | gtEq =>
    simp only [ite_eq_left_iff, reduceCtorEq, imp_false, not_not, Bool.or_eq_true] at h
    exact ⟨h.imp (hboth rfl) (hboth rfl), rfl⟩
  | and | or =>
    simp only [ite_eq_left_iff, reduceCtorEq, imp_false, not_not] at h
    exact hleaf rfl rfl h
  | eq | notEq => exact Ty.same_refl _

theorem proper_resultType {op : BinaryOp} {l r : Ty} (hl : l.proper) (hr : r.proper) :
    (resultType op l r).proper := by
  unfold resultType
  split
  · rfl
  · split
    · exact hr
    · split
      · rw [Ty.proper_fixed]
        exact hl
      · exact hl

theorem readIn_joinable (op : BinaryOp) (hl : ReadIn o left) (hr : ReadIn o right) :
    ReadIn o (joinable op left right).1 ∧ ReadIn o (joinable op left right).2 := by
  unfold joinable
  split
  · exact ⟨hl, hr⟩
  · split
    · exact ⟨hl, hr.wrap hl.proper⟩
    · split
      · exact ⟨hl.wrap hr.proper, hr⟩
      · exact ⟨hl, hr⟩

theorem index_checked {key : Expr} {token : Token} (hl : ReadIn o left) (hkey : ReadIn o key)
    (hcontainer : left.ty.kind = .array ∨ left.ty.kind = .map ∨ left.ty.kind = .string)
    (hty : key.ty.same (if left.ty.kind = .map then .string else .num)) :
    ReadIn o (.index ⟨token, if left.ty.kind = .string then .string else left.ty.elem.fixed⟩ left key) := by
  have helem : left.ty.elem.fixed.same left.ty.elem := Ty.same_symm (Ty.same_fixed _)
  have hproper : left.ty.elem.fixed.proper := by
    rw [Ty.proper_fixed]
    exact Ty.proper_elem hl.proper
  refine ⟨⟨?_, hl.checked, hkey.checked⟩, ?_⟩
  · rcases hcontainer with hk | hk | hk <;> simp only [hk, reduceCtorEq, if_false, if_true] at hty ⊢
    · exact .inl ⟨hk, hty, helem⟩
    · exact .inr (.inl ⟨hk, hty, helem⟩)
    · exact .inr (.inr ⟨hk, hty, Ty.same_refl _⟩)
  · show Ty.proper (if left.ty.kind = .string then .string else left.ty.elem.fixed)
    split
    · rfl
    · exact hproper

theorem boundChecked_of {e? : Option Expr} (hread : ∀ e, e? = some e → ReadIn o e)
    (hnum : ∀ e ∈ e?.toList, e.ty.same .num) : Expr.BoundChecked o.func? o.scopes.ty? e? := by
  cases e? with
  | none => trivial
  | some e => exact ⟨hnum e (by simp), (hread e rfl).checked⟩

/-! ### Operands -/

theorem readIn_ofVar (ho : o.Proper) (token : Token) {v : Var} {name : String} (hname : name ≠ "_")
    (hv : v.name = name) (hty : o.scopes.ty? name = some v.ty) : ReadIn o (.ofVar v token) := by
  subst hv
  refine ⟨⟨hname, v.ty, hty, Ty.same_fixed _⟩, ?_⟩
  show v.ty.fixed.proper
  rw [Ty.proper_fixed]
  exact ho.vars _ _ hty

theorem readVariable_reads (ho : o.Proper) : Reads φ o readVariable (ReadIn o) := by
  refine (Reads.look (f := State.cur)).bind fun token => (Reads.move State.moves_advance).bind fun _ => ?_
  refine .ifFail (.failAt _ _) <| (Reads.lift (readVar?_keeps token.literal)).bind fun v? => ?_
  split
  · next v =>
    refine .pure fun h => ?_
    obtain ⟨hname, hv, hty⟩ := h.2 v rfl
    exact readIn_ofVar ho token hname hv hty
  · refine (Reads.look (f := (·.isFunc token.literal))).bind fun b => ?_
    split
    · exact .failAt _ _
    · exact .failAt _ _

theorem reportOperand_keeps : Keeps φ o reportOperand fun _ => False := by
  refine Keeps.state.bind fun s => ?_
  split
  · dsimp only
    split
    · exact .reportHere _
    · split
      · exact .reportAt _ _
      · exact .reportHere _
  · exact .reportHere _

section
variable (hself : ∀ p, Reads True o (self p) (ReadIn o))
include hself

theorem unary_reads (op : UnaryOp) : Reads φ o (unary self op) (ReadIn o) := by
  refine (Reads.look (f := State.cur)).bind fun token => (Reads.move State.moves_advance).bind fun _ =>
    (Reads.lift Keeps.state).bind fun s => .ifFail (.failAt _ _) ?_
  refine (hself .unary).known.bind fun operand => .unlessFail (.failAt _ _) <| .pure fun h => ?_
  refine ⟨⟨?_, Ty.same_refl _, h.1.2.checked⟩, h.1.2.proper⟩
  cases op <;> exact h.2

theorem grouped_reads (ho : o.Proper) : Reads φ o (grouped self) (ReadIn o) := by
  refine .withSpacing false <| (Reads.look (f := State.cur)).bind fun token =>
    (Reads.move State.moves_advance).bind fun _ =>
    (Reads.lift (topLevel_reads hself ho).run).bind fun inner? =>
    (Reads.lift (Keeps.expect _)).bind fun closed => ?_
  split
  · next inner =>
    dsimp only
    split
    · refine (Reads.move State.moves_advanceOne).bind fun _ => .pure fun h => ?_
      have hread := h.1.1.2 inner rfl
      exact ⟨hread.checked, hread.proper⟩
    · exact .failure
  · exact .failure

theorem operand_reads (ho : o.Proper) : Reads φ o (operand self) (ReadIn o) := by
  have hliteral {φ : Prop} {e : Expr} (he : ReadIn o e) : Reads φ o (do advance; return e) (ReadIn o) :=
    (Reads.move State.moves_advance).bind fun _ => .pure fun _ => he
  refine (Reads.look (f := State.cur)).bind fun token => ?_
  split
  · exact readVariable_reads ho
  · exact hliteral ⟨rfl, rfl⟩
  · exact numLiteral_reads
  · exact hliteral ⟨rfl, rfl⟩
  · exact hliteral ⟨rfl, rfl⟩
  · exact arrayLiteral_reads hself
  · exact mapLiteral_reads hself
  · exact unary_reads hself _
  · exact unary_reads hself _
  · exact grouped_reads hself ho
  · exact (Reads.lift reportOperand_keeps).bind fun _ => .failure

/-! ### Operators -/

theorem binary_reads (op : BinaryOp) (hl : φ → ReadIn o left) :
    Reads φ o (binary self op left) (ReadIn o) := by
  refine (Reads.look (f := State.cur)).bind fun token => (Reads.move State.moves_advance).bind fun _ =>
    (hself _).known.bind fun right => ?_
  have hjoin (h : φ) (hr : ReadIn o right) := readIn_joinable op (hl h) hr
  revert hjoin
  obtain ⟨l, r⟩ := joinable op left right
  intro hjoin
  have hrest {ψ : Prop} (hψ : ψ → operandProblem? op l.ty r.ty = none ∧ ReadIn o l ∧ ReadIn o r) :
      Reads ψ o (do
        let tight := (← get).isSpaced
        return .binary ⟨token, resultType op l.ty r.ty⟩ op tight l r) (ReadIn o) := by
    refine (Reads.lift Keeps.state).bind fun s => .pure fun h => ?_
    obtain ⟨hop, hl, hr⟩ := hψ h.1
    exact ⟨⟨takes_of_operandProblem? hop, hl.checked, hr.checked⟩, proper_resultType hl.proper hr.proper⟩
  dsimp only
  split
  · exact (Reads.failAt _ _ (A := fun _ => False)).bind fun _ => hrest fun h => h.2.elim
  · next hop => exact hrest fun h => ⟨Option.eq_none_iff_forall_ne_some.2 hop, hjoin h.1.1.1 h.2⟩

theorem sliceRest_reads (ho : o.Proper) (token : Token) (start : Option Expr) (hl : φ → ReadIn o left)
    (hstart : φ → ∀ e, start = some e → ReadIn o e) :
    Reads φ o (sliceRest self token left start) (ReadIn o) := by
  refine .unlessFail (.failAt _ _) <| Reads.look.bind fun k => ?_
  generalize hφ' : ((φ ∧ _) ∧ _) = φ'
  have hend {ψ : Prop} (stop : Option Expr) (hψ : ψ → φ' ∧ ∀ e, stop = some e → ReadIn o e) : Reads ψ o (do
      require .rBracket
      for bound in start.toList ++ stop.toList do
        unless bound.ty.same .num do
          failAt bound.token (.sliceBound bound.ty)
      advanceOne
      return .slice ⟨token, left.ty.unfixed⟩ left start stop) (ReadIn o) := by
    refine (Reads.require _).bind fun _ => (Reads.forIn (c := fun e => e.ty.same .num) (fun e =>
      .unlessFail (.failAt _ _) (.pure fun h => ⟨rfl, h.2⟩)) _).bind fun _ =>
      (Reads.move State.moves_advanceOne).bind fun _ => .pure fun h => ?_
    obtain ⟨hφ, hstop⟩ := hψ h.1.1.1
    obtain ⟨⟨hφ, hk⟩, -⟩ := hφ' ▸ hφ
    have hbounds := h.1.2
    refine ⟨⟨by simpa using hk, Ty.same_symm (Ty.same_unfixed _), (hl hφ).checked, ?_, ?_⟩, ?_⟩
    · exact boundChecked_of (hstart hφ) fun e he => hbounds e (List.mem_append_left _ he)
    · exact boundChecked_of hstop fun e he => hbounds e (List.mem_append_right _ he)
    · show left.ty.unfixed.proper
      rw [Ty.proper_unfixed]
      exact (hl hφ).proper
  dsimp only
  split
  · exact hend none fun h => ⟨h, fun e he => by cases he⟩
  · refine ((topLevel_reads hself ho).map (B := fun e? => ∀ e, e? = some e → ReadIn o e)
      fun e he e' he' => Option.some.inj he' ▸ he).bind fun stop => hend stop id

/-- What is read is an index of `left` if slices are not allowed. -/
theorem indexOrSlice_reads (ho : o.Proper) (allowSlice : Bool) (hl : φ → ReadIn o left) :
    Reads φ o (indexOrSlice self left allowSlice) fun e =>
      ReadIn o e ∧ (allowSlice = false → ∃ m key, e = .index m left key) := by
  have hslice {ψ : Prop} {token : Token} {start : Option Expr} (hallow : allowSlice) (hψ : ψ → ReadIn o left)
      (hstart : ψ → ∀ e, start = some e → ReadIn o e) :
      Reads ψ o (sliceRest self token left start) fun e =>
        ReadIn o e ∧ (allowSlice = false → ∃ m key, e = .index m left key) :=
    (sliceRest_reads hself ho token start hψ hstart).weaken id fun e _ he =>
      ⟨he, fun h => by rw [hallow] at h; cases h⟩
  refine .withSpacing false <| (Reads.look (f := State.cur)).bind fun token =>
    (Reads.lift Keeps.state).bind fun s => .ifFail (.fail _) <|
    (Reads.move State.moves_advance).bind fun _ => .unlessFail (.failAt _ _) <|
    Reads.look.bind fun k => ?_
  split
  · next hcolon =>
    refine (Reads.move State.moves_advance).bind fun _ => ?_
    exact hslice (Bool.and_eq_true_iff.1 hcolon).1 (fun h => hl h.1.1.1.1.1.1.1) fun h e he => by cases he
  refine (topLevel_reads hself ho).bind fun key => Reads.look.bind fun k => ?_
  split
  · next hcolon =>
    refine (Reads.move State.moves_advance).bind fun _ => ?_
    refine hslice (Bool.and_eq_true_iff.1 hcolon).1 (fun h => hl h.1.1.1.1.1.1.1.1.1) fun h e he => ?_
    exact Option.some.inj he ▸ h.1.1.2
  refine (Reads.require _).bind fun _ => .unlessFail (.failAt _ _) <|
    (Reads.move State.moves_advanceOne).bind fun _ => .pure fun h => ?_
  have hcontainer := h.1.1.1.1.1.1.2
  exact ⟨index_checked (hl h.1.1.1.1.1.1.1.1.1.1.1) h.1.1.1.1.2 (by simpa [or_assoc] using hcontainer) h.1.2,
    fun _ => ⟨_, key, rfl⟩⟩

end

theorem requireTightDot_reads : Reads φ o requireTightDot fun _ => True := by
  refine (Reads.lift Keeps.state).bind fun _ => .ifFail (.fail _) ?_
  split
  · exact .fail _
  · exact .pure fun _ => trivial

theorem field_reads (hl : φ → ReadIn o left) :
    Reads φ o (field left) fun e => ReadIn o e ∧ ∃ m key, e = .dot m left key := by
  refine (Reads.look (f := State.cur)).bind fun token => requireTightDot_reads.bind fun _ =>
    (Reads.move State.moves_advanceOne).bind fun _ => .unlessFail (.failAt _ _) <|
    (Reads.look (f := State.cur)).bind fun key => .unlessFail (.failAt _ _) <|
    (Reads.move State.moves_advance).bind fun _ => .pure fun h => ?_
  have hread := hl h.1.1.1.1.1.1.1
  refine ⟨⟨⟨h.1.1.1.2, Ty.same_symm (Ty.same_fixed _), hread.checked⟩, ?_⟩, _, key.literal, rfl⟩
  show left.ty.elem.fixed.proper
  rw [Ty.proper_fixed]
  exact Ty.proper_elem hread.proper

theorem typeAssertion_reads (hl : φ → ReadIn o left) : Reads φ o (typeAssertion left) (ReadIn o) := by
  refine (Reads.look (f := State.cur)).bind fun token => requireTightDot_reads.bind fun _ =>
    .withSpacing false <| (Reads.move State.moves_advance).bind fun _ =>
    (Reads.move State.moves_advance).bind fun _ => (Reads.lift type_keeps).bind fun ty => ?_
  have hclosed {ψ : Prop} (p : Option Problem) (hp : ψ → p = none → ReadIn o left ∧ ty.settled) :
      Reads ψ o (do
        let closed ← expect .rParen
        if closed then advanceOne
        let isAny := left.ty.same .any
        unless isAny do
          reportAt token (.assertNotAny left.ty)
        unless p.isNone && closed && isAny do
          failure
        return .assert ⟨token, ty.fixed⟩ left) (ReadIn o) := by
    have hany {ψ : Prop} (closed : Bool) (hp : ψ → p = none → ReadIn o left ∧ ty.settled) :
        Reads ψ o (do
          let isAny := left.ty.same .any
          unless isAny do
            reportAt token (.assertNotAny left.ty)
          unless p.isNone && closed && isAny do
            failure
          return .assert ⟨token, ty.fixed⟩ left) (ReadIn o) := by
      refine .unlessFail (.lift (.reportAt _ _)) <| .unlessFail .failure <| .pure fun h => ?_
      have hnone : p.isNone := by
        have := h.2
        simp only [Bool.and_eq_true] at this
        exact this.1.1
      obtain ⟨hread, hty⟩ := hp h.1.1 (Option.isNone_iff_eq_none.1 hnone)
      have hsettled : ty.fixed.settled := Ty.settled_of_same (Ty.same_fixed ty) ▸ hty
      exact ⟨⟨h.1.2, hsettled, hread.checked⟩, Ty.proper_of_settled hsettled⟩
    refine (Reads.lift (Keeps.expect _)).bind fun closed => ?_
    dsimp only
    split
    · exact (Reads.move State.moves_advanceOne).bind fun _ => hany closed fun h => hp h.1.1
    · exact hany closed fun h => hp h.1
  dsimp only
  split
  · next p hp =>
    exact (Reads.lift (Keeps.reportAt _ _ (A := fun _ => False))).bind fun _ => hclosed _ fun h => h.2.elim
  · refine hclosed _ fun h hnone => ⟨hl h.1.1.1.1.1, h.2.resolve_left fun hk => ?_⟩
    rw [if_pos hk] at hnone
    cases hnone

section
variable (hself : ∀ p, Reads True o (self p) (ReadIn o)) (ho : o.Proper)
include hself ho

theorem afterOperand_reads (hl : φ → ReadIn o left) :
    Reads φ o (afterOperand self left) (ReadIn o) := by
  refine (Reads.lift Keeps.state).bind fun s => ?_
  split
  · exact binary_reads hself _ fun h => hl h.1
  · split
    · exact (indexOrSlice_reads hself ho true fun h => hl h.1).weaken id fun _ _ he => he.1
    · split
      · exact typeAssertion_reads fun h => hl h.1
      · exact (field_reads fun h => hl h.1).weaken id fun _ _ he => he.1

theorem operatorsWithin_reads (p : Precedence) (fuel : Nat) (hl : φ → ReadIn o left) :
    Reads φ o (operatorsWithin self p fuel left) (ReadIn o) := by
  induction fuel generalizing φ left with
  | zero => exact .pure hl
  | succ fuel ih =>
    refine (Reads.look (f := fun s => (s.isSpaced && s.cur.kind = .ws) || s.atLineEnd)).bind fun ended =>
      Reads.look.bind fun k => ?_
    split
    · exact .pure fun h => hl h.1.1
    · exact (afterOperand_reads hself ho fun h => hl h.1.1).bind fun e => ih fun h => h.2

end

/-! ### Expressions -/

section
variable (ho : o.Proper)
include ho

theorem exprWithin_reads (fuel : Nat) (p : Precedence) :
    Reads True o (exprWithin fuel p) (ReadIn o) := by
  induction fuel generalizing p with
  | zero => exact .failure
  | succ fuel ih =>
    refine (operand_reads ih ho).bind fun left => (Reads.lift Keeps.state).bind fun s => ?_
    exact operatorsWithin_reads ih ho p _ fun h => h.1.2

theorem nested_reads (p : Precedence) : Reads True o (nested p) (ReadIn o) :=
  (Reads.lift Keeps.state).bind fun _ => (exprWithin_reads ho _ p).known

theorem topLevelExpr_reads : Reads φ o topLevelExpr (ReadIn o) :=
  topLevel_reads (nested_reads ho) ho

end

end TinyScript.Parsing
