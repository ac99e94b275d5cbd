import TinyScript.Proofs.Binding.Reading
import TinyScript.Proofs.Parsing.Termination

/-!
# What expressions read

An expression that is read without problems marks the variables that occur in it, and they are declared
with the types that are recorded. Every construct is a parser over the parser for what is nested in it,
so each has a lemma that takes the claim for what is nested (`NestedTries`).
-/

namespace TinyScript

namespace Expr

/-! ### Retyping -/

mutual

theorem occurrences_infer (e : Expr) : e.infer.occurrences = e.occurrences := by
  match e with
  | .array m layout elems => exact allOccurrences_infer elems
  | .map m layout pairs => exact pairOccurrences_infer pairs
  | .group m inner => exact occurrences_infer inner
  | .binary m op tight left right =>
    exact congrArg₂ (· ++ ·) (occurrences_infer left) (occurrences_infer right)
  | .var .. | .num .. | .str .. | .bool .. | .call .. | .unary .. | .index .. | .slice .. | .dot ..
  | .assert .. | .any .. => rfl

theorem allOccurrences_infer (es : List Expr) : allOccurrences (inferAll es) = allOccurrences es := by
  match es with
  | [] => rfl
  | e :: es => exact congrArg₂ (· ++ ·) (occurrences_infer e) (allOccurrences_infer es)

theorem pairOccurrences_infer (ps : List (String × Expr)) :
    pairOccurrences (inferPairs ps) = pairOccurrences ps := by
  match ps with
  | [] => rfl
  | (k, e) :: ps => exact congrArg₂ (· ++ ·) (occurrences_infer e) (pairOccurrences_infer ps)

end

theorem occurrences_toAny (e : Expr) : e.toAny.occurrences = e.occurrences :=
  occurrences_infer e

mutual

/-- Fitting an expression into a slot keeps its variables as they are. -/
theorem occurrences_wrap (target : Ty) (e : Expr) : (e.wrap target).occurrences = e.occurrences := by
  match e with
  | .array m layout elems =>
    unfold wrap
    split
    · rfl
    · exact occurrences_toAny _
    · exact allOccurrences_wrap target.elem elems
  | .map m layout pairs =>
    unfold wrap
    split
    · rfl
    · exact occurrences_toAny _
    · exact pairOccurrences_wrap target.elem pairs
  | .binary m op tight left right =>
    unfold wrap
    split
    · rfl
    · exact occurrences_toAny _
    · exact congrArg₂ (· ++ ·) (occurrences_wrap target left) (occurrences_wrap target right)
  | .group m inner =>
    unfold wrap
    split
    · rfl
    · exact occurrences_toAny _
    · exact occurrences_wrap target inner
  | .var .. | .num .. | .str .. | .bool .. | .call .. | .unary .. | .index .. | .slice .. | .dot ..
  | .assert .. | .any .. =>
    unfold wrap
    split
    · exact occurrences_toAny _
    · rfl

theorem allOccurrences_wrap (target : Ty) (es : List Expr) :
    allOccurrences (wrapAll target es) = allOccurrences es := by
  match es with
  | [] => rfl
  | e :: es => exact congrArg₂ (· ++ ·) (occurrences_wrap target e) (allOccurrences_wrap target es)

theorem pairOccurrences_wrap (target : Ty) (ps : List (String × Expr)) :
    pairOccurrences (wrapPairs target ps) = pairOccurrences ps := by
  match ps with
  | [] => rfl
  | (k, e) :: ps => exact congrArg₂ (· ++ ·) (occurrences_wrap target e) (pairOccurrences_wrap target ps)

end

theorem allOccurrences_append (es fs : List Expr) :
    allOccurrences (es ++ fs) = allOccurrences es ++ allOccurrences fs := by
  induction es with
  | nil => rfl
  | cons e es ih => simp [allOccurrences, ih]

theorem pairOccurrences_append (ps qs : List (String × Expr)) :
    pairOccurrences (ps ++ qs) = pairOccurrences ps ++ pairOccurrences qs := by
  induction ps with
  | nil => rfl
  | cons p ps ih => simp [pairOccurrences, ih]

theorem allOccurrences_map_wrap (target : Ty) (es : List Expr) :
    allOccurrences (es.map (wrap target)) = allOccurrences es := by
  induction es with
  | nil => rfl
  | cons e es ih => simp [allOccurrences, ih, occurrences_wrap]

theorem pairOccurrences_map_wrap (target : Ty) (ps : List (String × Expr)) :
    pairOccurrences (ps.map fun (k, v) => (k, v.wrap target)) = pairOccurrences ps := by
  induction ps with
  | nil => rfl
  | cons p ps ih => simp [pairOccurrences, ih, occurrences_wrap]

theorem allOccurrences_zipWith_wrap (es : List Expr) (params : List Var) (h : params.length = es.length) :
    allOccurrences (es.zipWith (fun e p => e.wrap p.ty) params) = allOccurrences es := by
  induction es generalizing params with
  | nil => rfl
  | cons e es ih =>
    cases params with
    | nil => cases h
    | cons p params => simp [allOccurrences, occurrences_wrap, ih params (Nat.succ.inj h)]

end Expr

namespace Parsing

theorem joinable_occurrences (op : BinaryOp) (left right : Expr) :
    (joinable op left right).1.occurrences = left.occurrences ∧
      (joinable op left right).2.occurrences = right.occurrences := by
  unfold joinable
  repeat' split
  all_goals simp [Expr.occurrences_wrap]

variable {P : State → Prop}

/-! ### Parsers that read no variables -/

theorem typeWithin_parses [Stable P] (fuel : Nat) : Parses P (typeWithin fuel) fun _ => P := by
  induction fuel with
  | zero => exact .pure fun _ => id
  | succ fuel ih =>
    have hcomposite (close : TokenKind) (f : Ty → Ty) : Parses P (do
        if (← kind) ≠ close then return .illegal
        advance
        let elem ← typeWithin fuel
        return if elem.kind = .illegal then .illegal else f elem) fun _ => P := by
      refine Parses.peek.bind fun k => ?_
      split
      · exact .pure fun _ => id
      · exact (Parses.move State.alike_advance).bind fun _ => ih.bind fun _ => .pure fun _ => id
    refine Parses.peek.bind fun first => (Parses.move State.alike_advance).bind fun _ => ?_
    split
    · exact .pure fun _ => id
    · exact .pure fun _ => id
    · exact .pure fun _ => id
    · exact .pure fun _ => id
    · exact hcomposite .rBracket .array
    · exact hcomposite .rCurly .map
    · exact .pure fun _ => id

theorem type_parses [Stable P] : Parses P type fun _ => P :=
  Parses.get.bind fun s => typeWithin_parses s.fuel

theorem atListEnd_parses [Stable P] : Parses P atListEnd fun _ => P := by
  refine Parses.peek.bind fun k => ?_
  split
  · exact .pure fun _ => id
  · exact .pure fun _ => id
  · exact .pure fun _ => id
  · exact .peek

theorem layoutWithin_parses [Stable P] (fuel : Nat) (done : Array LayoutItem) :
    Parses P (layoutWithin fuel done) fun _ => P := by
  induction fuel generalizing done with
  | zero => exact .pure fun _ => id
  | succ fuel ih =>
    refine Parses.peek.bind fun token => ?_
    split
    · exact (Parses.move State.alike_advanceOne).bind fun _ => ih _
    · refine (Parses.move State.alike_advanceOne).bind fun _ => (Parses.expect _).bind fun _ => ?_
      exact ((Parses.move State.alike_advanceOne).bind fun _ => ih _).pre fun _ => And.right
    · exact (Parses.move State.alike_advanceOne).bind fun _ => ih _
    · exact .pure fun _ => id

theorem layoutItems_parses [Stable P] (done : Array LayoutItem) : Parses P (layoutItems done) fun _ => P :=
  Parses.get.bind fun s => layoutWithin_parses s.fuel done

theorem reportArguments_parses (name : String) (index : Nat) (params : List Var) (args : List Expr) :
    Parses P (reportArguments name index params args) fun _ => P := by
  induction params generalizing index args with
  | nil => exact .pure fun _ => id
  | cons v params ih =>
    cases args with
    | nil => exact .pure fun _ => id
    | cons e args =>
      unfold reportArguments
      dsimp only
      split
      · exact ih _ _
      · exact .reportThen (.reportAt _ _) (ih _ _)

theorem reportOperand_parses {Q : Unit → State → Prop} : Parses P reportOperand Q := by
  refine Parses.get.bind fun s => ?_
  dsimp only
  split
  · split
    · exact .reportHere _
    · split
      · exact .reportAt _ _
      · exact .reportHere _
  · exact .reportHere _

theorem requireTightDot_extends {vs : List Occurrence} : Extends vs (fun _ => vs) requireTightDot := by
  refine Extends.get.bind fun s => .ifFail (fun _ => .fail _) ?_
  split
  · exact .fail _
  · exact .pure rfl

/-! ### Calls -/

/-- The arguments of a call keep their variables. -/
theorem checkArguments_parses {σ : State} {os : List Occurrence} (signature : Signature) (args : List Expr) :
    Parses (Reading σ (os ++ Expr.allOccurrences args)) (checkArguments signature args) fun args' =>
      Reading σ (os ++ Expr.allOccurrences args') := by
  unfold checkArguments
  split
  · next rest _ =>
    refine (Parses.forM (fun e => ?_) args).bind fun _ => .pure fun s hs => ?_
    · split
      · exact .pure fun _ => id
      · exact .reportAt _ _
    · rwa [Expr.allOccurrences_map_wrap]
  · dsimp only
    split
    · exact Parses.get.bind fun _ => .reportThen (.reportAt _ _) (.pure fun _ => id)
    · next hlen =>
      refine (reportArguments_parses _ _ _ _).bind fun _ => .pure fun s hs => ?_
      rwa [Expr.allOccurrences_zipWith_wrap _ _ (not_not.1 hlen)]

/-- The parser for what is nested reads what occurs in its result. -/
abbrev NestedExtends (self : Nested) : Prop :=
  ∀ p, Extends [] Expr.occurrences (self p)

section
variable {self : Nested} (hself : NestedExtends self)
include hself

theorem spacedExpr_extends (vs : List Occurrence) :
    Extends vs (fun e => vs ++ e.occurrences) (spacedExpr self) :=
  .withSpacing true ((hself _).under vs)

theorem exprListWithin_extends (fuel : Nat) (done : Array Expr) :
    Extends (Expr.allOccurrences done.toList) Expr.allOccurrences (exprListWithin self fuel done) := by
  induction fuel generalizing done with
  | zero => exact .pure rfl
  | succ fuel ih =>
    refine (Extends.lift fun _ => atListEnd_parses).bind fun ended => ?_
    split
    · exact .pure rfl
    · refine (spacedExpr_extends hself _).bind fun e => Extends.skipBlank.bind fun _ => ?_
      simpa [Expr.allOccurrences_append, Expr.allOccurrences] using ih (done.push e)

theorem exprList_extends : Extends [] Expr.allOccurrences (exprList self) :=
  Extends.get.bind fun s => exprListWithin_extends hself s.fuel #[]

theorem call_tries (σ : State) (os : List Occurrence) :
    Tries (fun s => Reading σ os s ∧ s.isFunc s.cur.literal) (call self) fun c =>
      Reading σ (os ++ Expr.allOccurrences c.args) := by
  have hget (token : Token) : Parses (fun s => (Reading σ os s ∧ s.isFunc s.cur.literal) ∧ s.cur = token)
      get fun t s => Reading σ os s ∧ t.isFunc token.literal :=
    .state fun s hs => ⟨hs.1.1, hs.2 ▸ hs.1.2⟩
  refine (Tries.lift (Parses.look (f := State.cur))).bind fun token =>
    (Tries.lift (hget token)).bind fun s => ?_
  split
  · refine Tries.pre (P := Reading σ os) ?_ fun _ => And.left
    have hlist := exprList_extends hself σ os
    rw [List.append_nil] at hlist
    refine (Tries.move State.alike_advance).bind fun _ => hlist.bind fun args => ?_
    exact (Tries.lift (checkArguments_parses _ _)).bind fun args => .pure fun _ => id
  · next hnone =>
    refine .failure fun _ hs => ?_
    have hsome := hs.2
    unfold State.isFunc at hsome
    cases hfunc : s.func? token.literal with
    | none => simp [hfunc] at hsome
    | some sig => exact hnone sig hfunc

theorem topLevel_extends : Extends [] Expr.occurrences (topLevel self) := by
  intro σ os
  rw [List.append_nil]
  refine (Tries.lift (Parses.look (f := State.cur))).bind fun token =>
    (Tries.lift (Parses.look (f := (·.isFunc token.literal)))).bind fun known => ?_
  split
  · next hknown =>
    refine ((call_tries hself σ os).pre (fun s hs => ⟨hs.1.1, ?_⟩)).bind fun c => .pure fun _ => id
    rw [hs.1.2, hs.2]
    exact (Bool.and_eq_true_iff.1 hknown).2
  · have hnested := hself .lowest σ os
    rw [List.append_nil] at hnested
    exact hnested.pre fun _ hs => hs.1.1

/-! ### Literals -/

theorem elementsWithin_extends (fuel : Nat) (layout : Array LayoutItem) (elems : Array Expr) :
    Extends (Expr.allOccurrences elems.toList) (fun r => Expr.allOccurrences r.2)
      (elementsWithin self fuel layout elems) := by
  induction fuel generalizing layout elems with
  | zero => exact .pure rfl
  | succ fuel ih =>
    refine Extends.peek.bind fun k => ?_
    split
    · exact .pure rfl
    · exact .pure rfl
    · refine (spacedExpr_extends hself _).bind fun e =>
        (Extends.lift fun _ => layoutItems_parses _).bind fun layout => ?_
      simpa [Expr.allOccurrences_append, Expr.allOccurrences] using ih layout (elems.push e)

theorem arrayLiteral_extends : Extends [] Expr.occurrences (arrayLiteral self) := by
  refine Extends.peek.bind fun token => Extends.advance.bind fun _ =>
    (Extends.lift fun _ => layoutItems_parses _).bind fun layout => Extends.get.bind fun s =>
    (elementsWithin_extends hself _ _ #[]).bind fun r => (Extends.require _).bind fun _ =>
    Extends.advance.bind fun _ => ?_
  dsimp only
  split
  · next hempty => exact .pure (by rw [List.isEmpty_iff.1 hempty]; rfl)
  · exact .pure (Expr.allOccurrences_map_wrap _ _)

theorem pairsWithin_extends (fuel : Nat) (layout : Array LayoutItem) (pairs : Array (String × Expr)) :
    Extends (Expr.pairOccurrences pairs.toList) (fun r => Expr.pairOccurrences r.2)
      (pairsWithin self fuel layout pairs) := by
  induction fuel generalizing layout pairs with
  | zero => exact .pure rfl
  | succ fuel ih =>
    refine Extends.peek.bind fun token => ?_
    dsimp only
    split
    · exact .pure rfl
    · exact .pure rfl
    · refine .ifFail (fun _ => .fail _) <| Extends.advance.bind fun _ => (Extends.require _).bind fun _ =>
        Extends.advance.bind fun _ => (spacedExpr_extends hself _).bind fun e =>
        (Extends.lift fun _ => layoutItems_parses _).bind fun layout => ?_
      simpa [Expr.pairOccurrences_append, Expr.pairOccurrences] using ih layout (pairs.push (token.literal, e))
    · exact .fail _

theorem mapLiteral_extends : Extends [] Expr.occurrences (mapLiteral self) := by
  refine .withSpacing false <| Extends.peek.bind fun token => Extends.advance.bind fun _ =>
    (Extends.lift fun _ => layoutItems_parses _).bind fun layout => Extends.get.bind fun s =>
    (pairsWithin_extends hself _ _ #[]).bind fun r => (Extends.require _).bind fun _ =>
    Extends.advanceOne.bind fun _ => ?_
  dsimp only
  split
  · next hempty => exact .pure (by rw [List.isEmpty_iff.1 hempty]; rfl)
  · exact .pure (Expr.pairOccurrences_map_wrap _ _)

omit hself in
theorem numLiteral_extends : Extends [] Expr.occurrences numLiteral := by
  refine Extends.peek.bind fun token => Extends.advance.bind fun _ => ?_
  split
  · exact .pure rfl
  · exact .failAt _ _

end

/-! ### Operands -/

/-- A variable that is read is marked, and has the type that is recorded. -/
theorem Reading.read {σ : State} {os : List Occurrence} {s : State} {name : String} {v : Var}
    {scopes : Scopes} (h : Reading σ os s) (hread : s.scopes.read? name = some (v, scopes)) :
    Reading σ (os ++ [⟨v.name, v.ty.fixed⟩]) { s with scopes } := by
  have hscopes := h.scopes
  obtain ⟨hname, rfl, hty, -⟩ := Scopes.of_read? hread
  have hmark := Scopes.mark_of_read? hread
  refine ⟨⟨h.inRange.pos_le, h.inRange.eof⟩, ?_, fun o ho => ?_⟩
  · rw [hscopes] at hmark
    rw [State.mark_append, ← hmark]
    exact congrArg (fun s : State => { s with scopes := (σ.scopes.markAll os).mark v.name }) h.site
  · rcases List.mem_append.1 ho with ho | ho
    · exact h.refers o ho
    · obtain rfl := List.mem_singleton.1 ho
      rw [hscopes, Scopes.ty?_markAll] at hty
      exact ⟨hname, v.ty, hty, Ty.same_fixed _⟩

theorem readVar?_parses {σ : State} {os : List Occurrence} (name : String) :
    Parses (Reading σ os) (readVar? name) fun v? s =>
      ∀ v, v? = some v → Reading σ (os ++ [⟨v.name, v.ty.fixed⟩]) s := by
  intro s hs hclean
  rw [run_readVar?] at hclean ⊢
  cases hread : s.scopes.read? name with
  | none =>
    rw [hread] at hclean
    exact ⟨hclean, nofun⟩
  | some r =>
    rw [hread] at hclean
    refine ⟨hclean, fun v hv => ?_⟩
    cases hv
    exact (hs hclean).read hread

theorem readVariable_extends : Extends [] Expr.occurrences readVariable := by
  intro σ os
  rw [List.append_nil]
  refine Tries.peek.bind fun token => (Tries.move State.alike_advance).bind fun _ =>
    .ifFail (.failAt _ _) <| (Tries.lift (readVar?_parses token.literal)).bind fun v? => ?_
  split
  · exact .pure fun s hs => hs _ rfl
  · refine Tries.peek.bind fun _ => ?_
    split
    · exact .failAt _ _
    · exact .failAt _ _

section
variable {self : Nested} (hself : NestedExtends self) {left : Expr}
include hself

theorem unary_extends (op : UnaryOp) : Extends [] Expr.occurrences (unary self op) := by
  refine Extends.peek.bind fun token => Extends.advance.bind fun _ => Extends.get.bind fun s =>
    .ifFail (fun _ => .failAt _ _) <| (hself .unary).bind fun operand => ?_
  exact .unlessFail (fun _ => .failAt _ _) (.pure rfl)

theorem grouped_extends : Extends [] Expr.occurrences (grouped self) := by
  refine .withSpacing false <| Extends.peek.bind fun token => Extends.advance.bind fun _ => ?_
  intro σ os
  refine (Tries.lift (topLevel_extends hself σ os)).bind fun inner? => ?_
  cases inner? with
  | none =>
    refine ((Tries.lift (Parses.expect _)).bind fun _ => .failure fun _ hs => hs.2).pre fun s hs => ?_
    obtain ⟨e, he, -⟩ := hs
    cases he
  | some inner =>
    refine Tries.pre (P := Reading σ (os ++ inner.occurrences)) ?_ fun s hs => ?_
    · exact (Tries.lift (Parses.expect _)).bind fun closed =>
        .unlessFail (fun hclosed => .failure fun _ hs => hclosed hs.1) <|
        (Tries.move State.alike_advanceOne).bind fun _ => .pure fun _ => And.right
    · obtain ⟨e, he, h⟩ := hs
      cases he
      exact h

theorem operand_extends : Extends [] Expr.occurrences (operand self) := by
  have hliteral {e : Expr} (he : e.occurrences = []) : Extends [] Expr.occurrences (do advance; return e) :=
    Extends.advance.bind fun _ => .pure he
  refine Extends.peek.bind fun token => ?_
  split
  · exact readVariable_extends
  · exact hliteral rfl
  · exact numLiteral_extends
  · exact hliteral rfl
  · exact hliteral rfl
  · exact arrayLiteral_extends hself
  · exact mapLiteral_extends hself
  · exact unary_extends hself _
  · exact unary_extends hself _
  · exact grouped_extends hself
  · intro σ os
    exact (Tries.lift (reportOperand_parses (Q := fun _ _ => False))).bind fun _ => .failure fun _ => id

/-! ### Operators -/

theorem binary_extends (op : BinaryOp) : Extends left.occurrences Expr.occurrences (binary self op left) := by
  refine Extends.peek.bind fun token => Extends.advance.bind fun _ => ((hself _).under _).bind fun right =>
    ?_
  obtain ⟨hl, hr⟩ := joinable_occurrences op left right
  revert hl hr
  obtain ⟨l, r⟩ := joinable op left right
  intro hl hr
  have hrest : Extends (left.occurrences ++ right.occurrences) Expr.occurrences (do
      let tight := (← get).isSpaced
      return .binary ⟨token, resultType op l.ty r.ty⟩ op tight l r) :=
    Extends.get.bind fun s => .pure (congrArg₂ (· ++ ·) hl hr)
  dsimp only
  split
  · exact fun σ os => (Tries.failAt _ _).failThen fun _ => hrest σ os
  · exact hrest

theorem sliceRest_extends (token : Token) (start : Option Expr) :
    Extends (left.occurrences ++ Expr.optionOccurrences start) Expr.occurrences
      (sliceRest self token left start) := by
  refine .unlessFail (fun _ => .failAt _ _) <| Extends.peek.bind fun k => ?_
  have hend (stop : Option Expr) : Extends
      (left.occurrences ++ Expr.optionOccurrences start ++ Expr.optionOccurrences stop) Expr.occurrences (do
      require .rBracket
      for bound in start.toList ++ stop.toList do
        unless bound.ty.same .num do
          failAt bound.token (.sliceBound bound.ty)
      advanceOne
      return .slice ⟨token, left.ty.unfixed⟩ left start stop) := by
    refine (Extends.require _).bind fun _ => (Extends.forIn (fun P _ bound => ?_) _).bind fun _ =>
      Extends.advanceOne.bind fun _ => .pure rfl
    exact .unlessFail (fun _ => .failAt _ _) (.pure fun _ hs => ⟨rfl, hs⟩)
  dsimp only
  split
  · have hnone := hend none
    rw [Expr.optionOccurrences, List.append_nil] at hnone
    exact hnone
  · rw [map_eq_pure_bind, bind_assoc]
    refine ((topLevel_extends hself).under _).bind fun stop => ?_
    rw [pure_bind]
    exact hend (some stop)

theorem indexOrSlice_extends (allowSlice : Bool) :
    Extends left.occurrences Expr.occurrences (indexOrSlice self left allowSlice) := by
  refine .withSpacing false <| Extends.peek.bind fun token => Extends.get.bind fun s =>
    .ifFail (fun _ => .fail _) <| Extends.advance.bind fun _ => .unlessFail (fun _ => .failAt _ _) <|
    Extends.peek.bind fun k => ?_
  split
  · have hslice : Extends (left.occurrences ++ Expr.optionOccurrences none) Expr.occurrences
        (sliceRest self token left none) := sliceRest_extends hself token none
    rw [Expr.optionOccurrences, List.append_nil] at hslice
    exact Extends.advance.bind fun _ => hslice
  refine ((topLevel_extends hself).under _).bind fun key => Extends.peek.bind fun k => ?_
  split
  · exact Extends.advance.bind fun _ => sliceRest_extends hself token (some key)
  · refine (Extends.require _).bind fun _ => .unlessFail (fun _ => .failAt _ _) <|
      Extends.advanceOne.bind fun _ => .pure rfl

omit hself in
theorem field_extends : Extends left.occurrences Expr.occurrences (field left) := by
  refine Extends.peek.bind fun token => requireTightDot_extends.bind fun _ =>
    Extends.advanceOne.bind fun _ =>
    .unlessFail (fun _ => .failAt _ _) <| Extends.peek.bind fun key => .unlessFail (fun _ => .failAt _ _) <|
    Extends.advance.bind fun _ => .pure rfl

omit hself in
theorem typeAssertion_extends : Extends left.occurrences Expr.occurrences (typeAssertion left) := by
  refine Extends.peek.bind fun token => requireTightDot_extends.bind fun _ => .withSpacing false <|
    Extends.advance.bind fun _ => Extends.advance.bind fun _ =>
    (Extends.lift fun _ => type_parses).bind fun ty => ?_
  intro σ os
  have hjudge (p : Option Problem) (closed isAny : Bool) : Tries (fun s => (p = none ∧ closed ∧ isAny) ∧
      Reading σ (os ++ left.occurrences) s) (do
        unless p.isNone && closed && isAny do
          failure
        return Expr.assert ⟨token, ty.fixed⟩ left) fun e => Reading σ (os ++ e.occurrences) := by
    refine .unlessFail (fun hfails => .failure fun s hs => hfails ?_) (.pure fun _ => And.right)
    obtain ⟨⟨rfl, hclosed, hany⟩, -⟩ := hs
    rw [hclosed, hany]
    rfl
  have hany (p : Option Problem) (closed : Bool) : Tries (fun s => (p = none ∧ closed) ∧
      Reading σ (os ++ left.occurrences) s) (do
        let isAny := left.ty.same .any
        unless isAny do
          reportAt token (.assertNotAny left.ty)
        unless p.isNone && closed && isAny do
          failure
        return Expr.assert ⟨token, ty.fixed⟩ left) fun e => Reading σ (os ++ e.occurrences) := by
    dsimp only
    split
    · next hany => exact (hjudge p closed _).pre fun s hs => ⟨⟨hs.1.1, hs.1.2, hany⟩, hs.2⟩
    · exact (Tries.lift (Parses.reportAt _ _)).failThen fun _ => hjudge p closed _
  have hclosed (p : Option Problem) : Tries (fun s => p = none ∧ Reading σ (os ++ left.occurrences) s) (do
        let closed ← expect .rParen
        if closed then advanceOne
        let isAny := left.ty.same .any
        unless isAny do
          reportAt token (.assertNotAny left.ty)
        unless p.isNone && closed && isAny do
          failure
        return Expr.assert ⟨token, ty.fixed⟩ left) fun e => Reading σ (os ++ e.occurrences) := by
    refine (Tries.lift (Parses.expect _)).bind fun closed => ?_
    have hrest := (hany p closed).pre (I := fun s => closed ∧ p = none ∧ Reading σ (os ++ left.occurrences) s)
      fun s hs => ⟨⟨hs.2.1, hs.1⟩, hs.2.2⟩
    dsimp only
    split
    · exact (Tries.move State.alike_advanceOne).bind fun _ => hrest
    · exact hrest
  dsimp only
  split
  · exact (Tries.lift (Parses.reportAt _ _)).failThen fun _ => hclosed _
  · next hnone =>
    exact (hclosed _).pre fun s hs => ⟨Option.eq_none_iff_forall_ne_some.2 hnone, hs⟩

theorem afterOperand_extends : Extends left.occurrences Expr.occurrences (afterOperand self left) := by
  refine Extends.get.bind fun s => ?_
  split
  · exact binary_extends hself _
  · split
    · exact indexOrSlice_extends hself _
    · split
      · exact typeAssertion_extends
      · exact field_extends

theorem operatorsWithin_extends (p : Precedence) (fuel : Nat) :
    Extends left.occurrences Expr.occurrences (operatorsWithin self p fuel left) := by
  induction fuel generalizing left with
  | zero => exact .pure rfl
  | succ fuel ih =>
    refine Extends.peek.bind fun ended => Extends.peek.bind fun k => ?_
    split
    · exact .pure rfl
    · exact (afterOperand_extends hself).bind fun left => ih

end

/-! ### Expressions -/

/-- Reads an expression nested at most `fuel` deep, and reports one that is nested deeper. -/
def exprOrReport : (fuel : Nat) → Nested
  -- any problem does: the fuel is never used up
  | 0, _ => fail .emptyBlock
  | fuel + 1, p => do
    let left ← operand (exprOrReport fuel)
    operatorsWithin (exprOrReport fuel) p (← get).fuel left

theorem exprOrReport_extends (fuel : Nat) : NestedExtends (exprOrReport fuel) := by
  induction fuel with
  | zero => exact fun _ => .fail _
  | succ fuel ih =>
    exact fun p => (operand_extends ih).bind fun left => Extends.get.bind fun s =>
      operatorsWithin_extends ih p _

/-- What is nested starts at a later token, so that it is never nested too deep. -/
theorem exprOrReport_agree {n a b : Nat} (ha : n < a) (hb : n < b) :
    NestedAgree n (exprWithin a) (exprOrReport b) := by
  induction n using Nat.strongRecOn generalizing a b with
  | ind n ih =>
  obtain ⟨a, rfl⟩ := Nat.exists_eq_add_of_lt ha
  obtain ⟨b, rfl⟩ := Nat.exists_eq_add_of_lt hb
  intro q
  have h : ∀ j < n, NestedAgree j (exprWithin (n + a)) (exprOrReport (n + b)) := fun j hj =>
    ih j hj (by omega) (by omega)
  refine AgreeTry.fast (operand_agree h) not_succeeds_none fun left j hj => ?_
  refine .fuel fun s i hi hlt => ?_
  exact operatorsWithin_agree (fun k hk => h k (by omega)) hlt hlt left

/-- Problems are never taken back by an expression. -/
theorem clean_of_nested (p : Precedence) {s : State} (h : ((nested p).run.run s).2.Clean) : s.Clean := by
  have hread : Parses (At False s.outline) (nested p).run fun r s' => False ∧ s'.outline = s.outline ∧
      ∀ e, r = some e → ReadIn s.outline e :=
    (Parses.of_known (fun o ho => (nested_reads ho p).run) False.elim).post fun _ _ hs => hs.1.elim
  by_contra hs
  exact hs (hread s (fun hclean => absurd hclean hs) h).1

theorem run_nested (p : Precedence) (s : State) : (nested p).run.run s = (exprWithin s.fuel p).run.run s :=
  run_get_tryBind (fun s => exprWithin s.fuel p) s

theorem nested_extends : NestedExtends nested := by
  intro p σ os s hs hclean
  have hs := hs (clean_of_nested p hclean)
  have hagree :=
    exprOrReport_agree s.remaining_lt_fuel s.remaining_lt_fuel p s hs.inRange (Nat.le_refl _) trivial
  have hrun : (nested p).run.run s = (exprOrReport s.fuel p).run.run s := (run_nested p s).trans hagree.1
  rw [hrun] at hclean ⊢
  exact exprOrReport_extends s.fuel p σ os s (fun _ => hs) hclean

theorem topLevelExpr_extends : Extends [] Expr.occurrences topLevelExpr :=
  topLevel_extends nested_extends

end Parsing

end TinyScript
