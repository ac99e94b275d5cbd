import Mathlib.Logic.Function.Iterate
import TinyScript.Parsing.Expression
import TinyScript.Proofs.Parsing.Progress

/-!
# Reading an expression makes progress

An expression that is read takes up at least a token, and what is nested in it starts at a later one.
Each construct agrees with itself over two parsers for nested expressions that agree: right here for
the lists of expressions, only where fewer tokens are left for everything else.
-/

namespace TinyScript.Parsing

variable {n : Nat} {p : TokenKind → Prop} {self self' : Nested}

/-! ### Types -/

/-- What is nested in a type is read where fewer tokens are left. -/
theorem typeBy_agree {inner inner' : Parse Ty} (h : ∀ j < n, Agree j Any Never inner inner') :
    Agree n p Never (typeBy inner) (typeBy inner') := by
  have hcomposite {j : Nat} (hj : j < n) (close : TokenKind) (f : Ty → Ty) : Agree j Any Never (do
      if (← kind) ≠ close then return .illegal
      advance
      let elem ← inner
      return if elem.kind = .illegal then .illegal else f elem) (do
      if (← kind) ≠ close then return .illegal
      advance
      let elem ← inner'
      return if elem.kind = .illegal then .illegal else f elem) := by
    refine .look fun s _ => .ite (fun _ => .pure id) fun _ => ?_
    exact Agree.skip.slow fun _ => (h j hj).slow fun _ => .pure id
  refine .look fun s _ => ?_
  by_cases hk : s.cur.kind = .eof
  · rw [hk]
    exact Agree.skip.slow fun _ => .pure id
  · refine (Agree.advanceFrom hk).fast fun _ j hj => ?_
    split
    · exact .pure id
    · exact .pure id
    · exact .pure id
    · exact .pure id
    · exact hcomposite hj .rBracket .array
    · exact hcomposite hj .rCurly .map
    · exact .pure id

/-- A bound above the number of tokens left is never reached, so it does not matter what is done there. -/
theorem iterate_typeBy_agree {bottom bottom' : Parse Ty} {a b : Nat} (ha : n < a) (hb : n < b) :
    Agree n p Never (typeBy^[a] bottom) (typeBy^[b] bottom') := by
  induction n using Nat.strongRecOn generalizing a b p with
  | ind n ih =>
  obtain ⟨a, rfl⟩ := Nat.exists_eq_add_of_lt ha
  obtain ⟨b, rfl⟩ := Nat.exists_eq_add_of_lt hb
  rw [Function.iterate_succ_apply', Function.iterate_succ_apply']
  exact typeBy_agree fun j hj => ih j hj (by omega) (by omega)

theorem typeWithin_eq_iterate (fuel : Nat) : typeWithin fuel = typeBy^[fuel] (return .illegal) := by
  induction fuel with
  | zero => rfl
  | succ fuel ih => rw [Function.iterate_succ_apply', ← ih, typeWithin]

theorem type_agree : Agree n p Never type type :=
  .fuel fun s _ _ h => typeWithin_eq_iterate s.fuel ▸ iterate_typeBy_agree h h

/-! ### Lists of expressions -/

/-- Two parsers for nested expressions that agree, and go on by a token for every expression. -/
def NestedAgree (n : Nat) (self self' : Nested) : Prop :=
  ∀ p, AgreeTry n Any Succeeds (self p) (self' p)

theorem NestedAgree.mono {j : Nat} (h : NestedAgree n self self') (hj : j ≤ n) : NestedAgree j self self' :=
  fun p => (h p).mono hj (fun _ => id) fun _ => id

theorem spacedExpr_agree (h : NestedAgree n self self') :
    AgreeTry n Any Succeeds (spacedExpr self) (spacedExpr self') :=
  .withSpacing true (h .lowest)

theorem atListEnd_stays : Stays atListEnd := by
  refine Stays.look.bind fun k => ?_
  split
  · exact .pure _
  · exact .pure _
  · exact .pure _
  · exact .look

theorem exprListWithin_agree (h : NestedAgree n self self') {a b : Nat} (ha : n < a) (hb : n < b)
    (done : Array Expr) : AgreeTry n p Never (exprListWithin self a done) (exprListWithin self' b done) := by
  induction n using Nat.strongRecOn generalizing a b done p with
  | ind n ih =>
  obtain ⟨a, rfl⟩ := Nat.exists_eq_add_of_lt ha
  obtain ⟨b, rfl⟩ := Nat.exists_eq_add_of_lt hb
  refine .liftStill atListEnd_stays fun ended => .ite (fun _ => .pure id) fun _ => ?_
  have hfirst := (spacedExpr_agree h).mono (q := (p)) n.le_refl (fun _ _ => trivial) fun _ => id
  refine AgreeTry.fast hfirst id fun e j hj => ?_
  exact .liftSlow Agree.skipBlank fun _ => ih j hj (h.mono (Nat.le_of_lt hj)) (by omega) (by omega) _

theorem exprList_agree (h : NestedAgree n self self') : AgreeTry n p Never (exprList self) (exprList self') :=
  .fuel fun _ _ hj hlt => exprListWithin_agree (h.mono hj) hlt hlt _

theorem reportArguments_stays (name : String) (index : Nat) (params : List Var) (args : List Expr) :
    Stays (reportArguments name index params args) := by
  induction params generalizing index args with
  | nil => exact .pure _
  | cons v params ih =>
    cases args with
    | nil => exact .pure _
    | cons e args =>
      unfold reportArguments
      split
      · exact ih _ _
      · exact (Stays.reportAt _ _).bind fun _ => ih _ _

theorem checkArguments_stays (signature : Signature) (args : List Expr) :
    Stays (checkArguments signature args) := by
  unfold checkArguments
  split
  · next rest _ =>
    refine (Stays.forM (fun e => ?_) _).bind fun _ => .pure _
    split
    · exact .pure _
    · exact .reportAt _ _
  · dsimp only
    split
    · exact Stays.get.bind fun _ => (Stays.reportAt _ _).bind fun _ => .pure _
    · exact (reportArguments_stays _ _ _ _).bind fun _ => .pure _

/-- What is nested in a construct starts after its first token. -/
theorem call_agree (hp : ∀ k, p k → k ≠ .eof) (h : ∀ j < n, NestedAgree j self self') :
    AgreeTry n p Succeeds (call self) (call self') := by
  refine .look fun s hs => .state fun t ht => ?_
  split
  · next signature _ =>
    refine .liftFast (.advanceFrom (ht ▸ hp _ hs)) fun _ j hj => ?_
    refine AgreeTry.slow (exprList_agree (h j hj)) id fun args => ?_
    exact .liftStill (checkArguments_stays signature args) fun _ => .pure id
  · exact .failure not_succeeds_none

theorem NestedAgree.below (h : NestedAgree n self self') : ∀ j < n, NestedAgree j self self' :=
  fun _ hj => h.mono (Nat.le_of_lt hj)

theorem topLevel_agree (h : NestedAgree n self self') :
    AgreeTry n p Succeeds (topLevel self) (topLevel self') := by
  refine .look fun s _ => .look fun t ht => .ite (fun hcall => ?_) fun _ => ?_
  · have hident : s.cur.kind = .ident := by
      rw [Bool.and_eq_true, decide_eq_true_eq] at hcall
      exact hcall.1
    refine AgreeTry.fast (call_agree (fun k hk => ?_) h.below) not_succeeds_none fun c j _ => .pure id
    rw [hk, ht, hident]
    nofun
  · exact (h .lowest).mono n.le_refl (fun _ _ => trivial) fun _ => id

/-! ### Literals -/

theorem layoutWithin_agree {n a b : Nat} (ha : n < a) (hb : n < b) (done : Array LayoutItem) :
    Agree n p Never (layoutWithin a done) (layoutWithin b done) := by
  induction n using Nat.strongRecOn generalizing a b done p with
  | ind n ih =>
  obtain ⟨a, rfl⟩ := Nat.exists_eq_add_of_lt ha
  obtain ⟨b, rfl⟩ := Nat.exists_eq_add_of_lt hb
  refine .look fun s _ => ?_
  split
  · next hk =>
    refine (Agree.advanceOneFrom (by rw [hk]; nofun)).fast fun _ j hj => ?_
    exact ih j hj (by omega) (by omega) _
  · next hk =>
    refine (Agree.advanceOneFrom (by rw [hk]; nofun)).fast fun _ j hj => ?_
    refine .still (.expect _) fun _ => Agree.skipOne.slow fun _ => ?_
    exact ih j hj (by omega) (by omega) _
  · next hk =>
    refine (Agree.advanceOneFrom (by rw [hk]; nofun)).fast fun _ j hj => ?_
    exact ih j hj (by omega) (by omega) _
  · exact .pure id

theorem layoutItems_agree (done : Array LayoutItem) :
    Agree n p Never (layoutItems done) (layoutItems done) :=
  .fuel fun _ _ _ h => layoutWithin_agree h h done

theorem elementsWithin_agree (h : NestedAgree n self self') {a b : Nat} (ha : n < a) (hb : n < b)
    (layout : Array LayoutItem) (elems : Array Expr) :
    AgreeTry n p Never (elementsWithin self a layout elems) (elementsWithin self' b layout elems) := by
  induction n using Nat.strongRecOn generalizing a b layout elems p with
  | ind n ih =>
  obtain ⟨a, rfl⟩ := Nat.exists_eq_add_of_lt ha
  obtain ⟨b, rfl⟩ := Nat.exists_eq_add_of_lt hb
  refine .look fun s _ => ?_
  split
  · exact .pure id
  · exact .pure id
  · have hfirst := (spacedExpr_agree h).mono (q := (· = s.cur.kind)) n.le_refl (fun _ _ => trivial)
      fun _ => id
    refine AgreeTry.fast hfirst id fun e j hj => ?_
    refine .liftSlow (layoutItems_agree _) fun layout => ?_
    exact ih j hj (h.below j hj) (by omega) (by omega) _ _

theorem arrayLiteral_agree (hp : ∀ k, p k → k ≠ .eof) (h : ∀ j < n, NestedAgree j self self') :
    AgreeTry n p Succeeds (arrayLiteral self) (arrayLiteral self') := by
  refine .look fun s hs => .liftFast (.advanceFrom (hp _ hs)) fun _ j hj => ?_
  refine .liftSlow (layoutItems_agree _) fun layout => ?_
  refine .fuel fun t i hi hlt => ?_
  refine AgreeTry.slow (elementsWithin_agree ((h j hj).mono hi) hlt hlt _ _) id fun ⟨layout, elems⟩ => ?_
  refine AgreeTry.slow (.require _) id fun _ => .liftSlow .skip fun _ => ?_
  exact .ite (fun _ => .pure id) fun _ => .pure id

theorem pairsWithin_agree (h : NestedAgree n self self') {a b : Nat} (ha : n < a) (hb : n < b)
    (layout : Array LayoutItem) (pairs : Array (String × Expr)) :
    AgreeTry n p Never (pairsWithin self a layout pairs) (pairsWithin self' b layout pairs) := by
  induction n using Nat.strongRecOn generalizing a b layout pairs p with
  | ind n ih =>
  obtain ⟨a, rfl⟩ := Nat.exists_eq_add_of_lt ha
  obtain ⟨b, rfl⟩ := Nat.exists_eq_add_of_lt hb
  refine .look fun s _ => ?_
  dsimp only
  split
  · exact .pure id
  · exact .pure id
  · next hk =>
    refine .ifFail (.fail _) id fun _ => ?_
    refine .liftFast (.advanceFrom (by rw [hk]; nofun)) fun _ j hj => ?_
    refine AgreeTry.slow (.require _) id fun _ => .liftSlow .skip fun _ => ?_
    have hvalue := (spacedExpr_agree (h.below j hj)).weaken (p := Any) (Nat.le_refl _)
    refine AgreeTry.slow hvalue id fun value => .liftSlow (layoutItems_agree _) fun layout => ?_
    exact ih j hj (h.below j hj) (by omega) (by omega) _ _
  · exact .fails (.fail _) id

theorem mapLiteral_agree (hp : ∀ k, p k → k ≠ .eof) (h : ∀ j < n, NestedAgree j self self') :
    AgreeTry n p Succeeds (mapLiteral self) (mapLiteral self') := by
  refine .withSpacing _ ?_
  refine .look fun s hs => .liftFast (.advanceFrom (hp _ hs)) fun _ j hj => ?_
  refine .liftSlow (layoutItems_agree _) fun layout => .fuel fun t i hi hlt => ?_
  refine AgreeTry.slow (pairsWithin_agree ((h j hj).mono hi) hlt hlt _ _) id fun ⟨layout, pairs⟩ => ?_
  refine AgreeTry.slow (.require _) id fun _ => .liftSlow .skipOne fun _ => ?_
  exact .ite (fun _ => .pure id) fun _ => .pure id

theorem numLiteral_agree (hp : ∀ k, p k → k ≠ .eof) : AgreeTry n p Succeeds numLiteral numLiteral := by
  refine .look fun s hs => .liftFast (.advanceFrom (hp _ hs)) fun _ j _ => ?_
  split
  · exact .pure id
  · exact .fails (.failAt _ _) id

/-! ### Operands -/

theorem readVariable_agree (hp : ∀ k, p k → k ≠ .eof) :
    AgreeTry n p Succeeds readVariable readVariable := by
  refine .look fun s hs => .liftFast (.advanceFrom (hp _ hs)) fun _ j _ => ?_
  refine .ifFail (.failAt _ _) id fun _ => .liftStill (.readVar? _) fun r => ?_
  split
  · exact .pure id
  · exact .look fun t _ => .ite (fun _ => .fails (.failAt _ _) id) fun _ => .fails (.failAt _ _) id

theorem unary_agree (hp : ∀ k, p k → k ≠ .eof) (h : ∀ j < n, NestedAgree j self self') (op : UnaryOp) :
    AgreeTry n p Succeeds (unary self op) (unary self' op) := by
  refine .look fun s hs => .liftFast (.advanceFrom (hp _ hs)) fun _ j hj => ?_
  refine .state fun t _ => .ifFail (.failAt _ _) id fun _ => ?_
  have hoperand := (h j hj .unary).weaken (p := (· = t.cur.kind)) (Nat.le_refl _)
  refine AgreeTry.slow hoperand id fun e => ?_
  exact .unlessFail (.failAt _ _) id fun _ => .pure id

theorem grouped_agree (hp : ∀ k, p k → k ≠ .eof) (h : ∀ j < n, NestedAgree j self self') :
    AgreeTry n p Succeeds (grouped self) (grouped self') := by
  refine .withSpacing _ ?_
  refine .look fun s hs => .liftFast (.advanceFrom (hp _ hs)) fun _ j hj => ?_
  refine .liftSlow ((topLevel_agree (p := Any) (h j hj)).weaken (Nat.le_refl _)) fun inner? => ?_
  refine .liftStill (.expect _) fun closed => ?_
  cases inner? with
  | none => exact .failure id
  | some inner => exact .unlessFail .failure id fun _ => (.liftSlow .skipOne fun _ => .pure id)

theorem reportOperand_stays : Stays reportOperand := by
  refine Stays.get.bind fun s => ?_
  dsimp only
  split
  · split
    · exact .report _
    · split
      · exact .reportAt _ _
      · exact .report _
  · exact .report _

theorem operand_agree (h : ∀ j < n, NestedAgree j self self') :
    AgreeTry n p Succeeds (operand self) (operand self') := by
  refine .look fun s _ => ?_
  have hlive {k : TokenKind} (hk : s.cur.kind = k) (hne : k ≠ .eof) : ∀ l, l = s.cur.kind → l ≠ .eof := by
    rintro _ rfl
    rwa [hk]
  split
  · next hk => exact readVariable_agree (hlive hk nofun)
  · next hk => exact .liftFast (.advance (hlive hk nofun)) fun _ _ _ => .pure id
  · next hk => exact numLiteral_agree (hlive hk nofun)
  · next hk => exact .liftFast (.advance (hlive hk nofun)) fun _ _ _ => .pure id
  · next hk => exact .liftFast (.advance (hlive hk nofun)) fun _ _ _ => .pure id
  · next hk => exact arrayLiteral_agree (hlive hk nofun) h
  · next hk => exact mapLiteral_agree (hlive hk nofun) h
  · next hk => exact unary_agree (hlive hk nofun) h _
  · next hk => exact unary_agree (hlive hk nofun) h _
  · next hk => exact grouped_agree (hlive hk nofun) h
  · exact .liftStill reportOperand_stays fun _ => .failure not_succeeds_none

/-! ### Operators -/

theorem binary_agree (hp : ∀ k, p k → k ≠ .eof) (h : ∀ j < n, NestedAgree j self self') (op : BinaryOp)
    (left : Expr) : AgreeTry n p Succeeds (binary self op left) (binary self' op left) := by
  refine .look fun s hs => .liftFast (.advanceFrom (hp _ hs)) fun _ j hj => ?_
  have hright := (h j hj (precedenceOf s.cur.kind)).weaken (p := Any) (Nat.le_refl _)
  refine AgreeTry.slow hright id fun right => ?_
  dsimp only
  split
  · exact .failsThen (.failAt _ _) id
  · exact .state fun _ _ => .pure id

theorem sliceRest_agree (h : NestedAgree n self self') (token : Token) (left : Expr)
    (start : Option Expr) :
    AgreeTry n Any Never (sliceRest self token left start) (sliceRest self' token left start) := by
  refine .unlessFail (.failAt _ _) id fun _ => ?_
  refine .look fun s _ => ?_
  extract_lets rest
  have hrest (stop : Option Expr) : AgreeTry n Any Never (rest stop) (rest stop) := by
    refine AgreeTry.slow (.require _) id fun _ => ?_
    refine AgreeTry.slow (.forIn (fun b => ?_) _) id fun _ => .liftSlow .skipOne fun _ => .pure id
    exact .unlessFail (.failAt _ _) id fun _ => .pure id
  refine .ite (fun _ => (hrest none).weaken (Nat.le_refl _)) fun _ => ?_
  exact AgreeTry.slow ((AgreeTry.map (topLevel_agree (p := Any) h)).weaken (Nat.le_refl _)) id hrest

theorem indexOrSlice_agree (hp : ∀ k, p k → k ≠ .eof) (h : ∀ j < n, NestedAgree j self self')
    (left : Expr) (allowSlice : Bool) :
    AgreeTry n p Succeeds (indexOrSlice self left allowSlice) (indexOrSlice self' left allowSlice) := by
  refine .withSpacing _ ?_
  refine .look fun s hs => .state fun t ht => .ifFail (.fail _) not_succeeds_none fun _ => ?_
  refine .liftFast (.advanceFrom (ht ▸ hp _ hs)) fun _ j hj => ?_
  refine .unlessFail (.failAt _ _) id fun _ => ?_
  have hslice (start : Option Expr) : AgreeTry j Any Never (do
      advance
      return ← sliceRest self s.cur left start) (do
      advance
      return ← sliceRest self' s.cur left start) :=
    .liftSlow .skip fun _ => sliceRest_agree (h j hj) _ _ _
  refine .look fun u _ => .ite (fun _ => (hslice none).weaken (Nat.le_refl _)) fun _ => ?_
  refine AgreeTry.slow ((topLevel_agree (p := Any) (h j hj)).weaken (Nat.le_refl _)) id fun key => ?_
  refine .look fun u _ => .ite (fun _ => (hslice (some key)).weaken (Nat.le_refl _)) fun _ => ?_
  refine AgreeTry.slow (.require _) id fun _ => .unlessFail (.failAt _ _) id fun _ => ?_
  exact .liftSlow .skipOne fun _ => .pure id

theorem requireTightDot_stays : Stays requireTightDot.run := by
  refine Stays.tryBind .get fun s => ?_
  have hrest : Stays (if (s.tokenAt (s.pos + 1)).kind = .ws then
      fail (.blankAfter (Text.quote ".")) else pure PUnit.unit : Attempt PUnit).run := by
    split
    · exact (Fails.fail _).1
    · exact .pure _
  extract_lets rest
  split
  · exact Stays.tryBind (Fails.fail _).1 fun _ => hrest
  · exact hrest

theorem field_agree (hp : ∀ k, p k → k ≠ .eof) (left : Expr) :
    AgreeTry n p Succeeds (field left) (field left) := by
  refine .look fun s hs => .still requireTightDot_stays not_succeeds_none fun _ => ?_
  refine .liftFast (.advanceOneFrom (hp _ hs)) fun _ j _ => .unlessFail (.failAt _ _) id fun _ => ?_
  refine .look fun t _ => .unlessFail (.failAt _ _) id fun _ => ?_
  exact .liftSlow .skip fun _ => .pure id

theorem typeAssertion_agree (hp : ∀ k, p k → k ≠ .eof) (left : Expr) :
    AgreeTry n p Succeeds (typeAssertion left) (typeAssertion left) := by
  refine .look fun s hs => .still requireTightDot_stays not_succeeds_none fun _ => .withSpacing _ ?_
  refine .liftFast (.advanceFrom (hp _ hs)) fun _ j _ => .liftSlow .skip fun _ => ?_
  refine .liftSlow type_agree fun ty => ?_
  extract_lets typeProblem isAny finish rest
  have hrest (u : Unit) : AgreeTry j Any Never (rest u) (rest u) := by
    refine .liftStill (.expect _) fun closed => ?_
    extract_lets judge afterClosed
    have hjudge (u : Unit) : AgreeTry j Any Never (judge u) (judge u) :=
      .unlessFail .failure id fun _ => .pure id
    have hafter (u : Unit) : AgreeTry j Any Never (afterClosed u) (afterClosed u) :=
      .ite (fun _ => hjudge ()) fun _ => .liftStill (.reportAt _ _) hjudge
    exact .ite (fun _ => .liftSlow .skipOne hafter) fun _ => hafter ()
  cases typeProblem with
  | none => exact hrest ()
  | some problem => exact .liftStill (.reportAt _ _) hrest

theorem afterOperand_agree (hp : ∀ k, p k → k ≠ .eof) (h : ∀ j < n, NestedAgree j self self')
    (left : Expr) : AgreeTry n p Succeeds (afterOperand self left) (afterOperand self' left) := by
  refine .state fun s hs => ?_
  have hlive : ∀ l, l = s.cur.kind → l ≠ .eof := fun l hl => hl ▸ hp _ hs
  split
  · exact binary_agree hlive h _ _
  · refine .ite (fun _ => indexOrSlice_agree hlive h _ _) fun _ => ?_
    exact .ite (fun _ => typeAssertion_agree hlive _) fun _ => field_agree hlive _

theorem operatorsWithin_agree {q : Precedence} (h : ∀ j < n, NestedAgree j self self') {a b : Nat} (ha : n < a) (hb : n < b)
    (left : Expr) :
    AgreeTry n p Never (operatorsWithin self q a left) (operatorsWithin self' q b left) := by
  induction n using Nat.strongRecOn generalizing a b left p with
  | ind n ih =>
  obtain ⟨a, rfl⟩ := Nat.exists_eq_add_of_lt ha
  obtain ⟨b, rfl⟩ := Nat.exists_eq_add_of_lt hb
  refine .look fun s _ => .look fun t ht => .ite (fun _ => .pure id) fun hgo => ?_
  have hlive : t.cur.kind ≠ .eof := by
    intro hk
    rw [hk] at hgo
    exact hgo (by simp [precedenceOf, Precedence.level])
  refine AgreeTry.fast (afterOperand_agree (by rintro _ rfl; exact hlive) h left) id fun e j hj => ?_
  exact ih j hj (fun i hi => h i (Nat.lt_trans hi hj)) (by omega) (by omega) _

/-- What is nested in an expression starts at a later token. -/
theorem exprBy_agree (h : ∀ j < n, NestedAgree j self self') : NestedAgree n (exprBy self) (exprBy self') := by
  intro q
  refine AgreeTry.fast (operand_agree h) not_succeeds_none fun left j hj => ?_
  refine .fuel fun s i hi hlt => ?_
  exact operatorsWithin_agree (fun k hk => h k (by omega)) hlt hlt left

/-- A bound above the number of tokens left is never reached, so it does not matter what is done there. -/
theorem iterate_exprBy_agree {bottom bottom' : Nested} {a b : Nat} (ha : n < a) (hb : n < b) :
    NestedAgree n (exprBy^[a] bottom) (exprBy^[b] bottom') := by
  induction n using Nat.strongRecOn generalizing a b with
  | ind n ih =>
  obtain ⟨a, rfl⟩ := Nat.exists_eq_add_of_lt ha
  obtain ⟨b, rfl⟩ := Nat.exists_eq_add_of_lt hb
  rw [Function.iterate_succ_apply', Function.iterate_succ_apply']
  exact exprBy_agree fun j hj => ih j hj (by omega) (by omega)

theorem exprWithin_eq_iterate (fuel : Nat) : exprWithin fuel = exprBy^[fuel] fun _ => failure := by
  induction fuel with
  | zero => rfl
  | succ fuel ih => rw [Function.iterate_succ_apply', ← ih]; rfl

theorem nested_agree : NestedAgree n nested nested :=
  fun p => .fuel fun s _ _ hlt => exprWithin_eq_iterate s.fuel ▸ iterate_exprBy_agree hlt hlt p

theorem topLevelExpr_agree : AgreeTry n p Succeeds topLevelExpr topLevelExpr :=
  topLevel_agree nested_agree

end TinyScript.Parsing
