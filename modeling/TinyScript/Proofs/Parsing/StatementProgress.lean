import TinyScript.Parsing.Program
import TinyScript.Proofs.Parsing.ExpressionProgress

/-!
# Reading a program makes progress

Every statement, function and handler takes up at least a token, whether it is read or dropped, so the
loops over them end, and a block nested in a statement starts at a later token than the statement.
-/

namespace TinyScript.Parsing

variable {n : Nat} {p : TokenKind → Prop} {block block' : Blocks}

/-! ### Declarations -/

theorem checkDecl_stays (v : Var) (allowAnonymous : Bool) : Stays (checkDecl v allowAnonymous) := by
  refine Stays.get.bind fun s => ?_
  split
  · exact .pure _
  · exact (Stays.reportAt _ _).bind fun _ => .pure _

theorem declareVar_stays (v : Var) : Stays (declareVar v) := fun _ => ⟨rfl, rfl, rfl⟩

theorem typedVar_agree (hp : ∀ k, p k → k ≠ .eof) : Agree n p Always typedVar typedVar := by
  refine .look fun s hs => (Agree.advanceFrom (hp _ hs)).fast fun _ j _ => Agree.skip.slow fun _ => ?_
  refine type_agree.slow fun ty => .look fun t _ => ?_
  extract_lets value rest
  refine .ite (fun _ => .still (.reportAt _ _) fun _ => .pure id) fun _ => .pure id

theorem typedDecl_agree (hp : ∀ k, p k → k ≠ .eof) : Agree n p Always typedDecl typedDecl := by
  refine (typedVar_agree hp).fast fun ⟨v, value⟩ j _ => ?_
  dsimp -zeta only
  extract_lets rest
  have hrest (u : Unit) : Agree j Any Never (rest u) (rest u) :=
    .look fun _ _ => Agree.nextLine.slow fun _ => .pure id
  split
  · refine .still (checkDecl_stays _ _) fun ok => .ite (fun _ => ?_) fun _ => hrest ()
    exact .still (declareVar_stays _) fun _ => .still .expectLineEnd hrest
  · exact hrest ()

theorem inferredDecl_agree (hp : ∀ k, p k → k ≠ .eof) : AgreeTry n p Always inferredDecl inferredDecl := by
  refine Agree.fast ?_ fun stmt j _ => Agree.nextLine.slow fun _ => .pure id
  refine AgreeTry.look fun s hs => .liftFast (.advanceFrom (hp _ hs)) fun _ j _ => .liftSlow .skip fun _ => ?_
  refine .look fun t _ => .liftSlow (topLevelExpr_agree.weaken (Nat.le_refl _)) fun value? => ?_
  cases value? with
  | none => exact .fails (.fail _) id
  | some value =>
    refine .ifFail (.fail _) id fun _ => .liftStill (checkDecl_stays _ _) fun ok => ?_
    refine .unlessFail .failure id fun _ => .liftStill (declareVar_stays _) fun _ => ?_
    exact .liftStill .expectLineEnd fun _ => .look fun _ _ => .pure id

/-! ### Simple statements -/

theorem emptyLine_agree (hp : ∀ k, p k → k ≠ .eof) : Agree n p Always emptyLine emptyLine := by
  refine .look fun s hs => .look fun t ht => ?_
  have hlive : ∀ k, k = t.cur.kind → k ≠ .eof := fun k hk => hk ▸ ht ▸ hp _ hs
  refine .ite (fun _ => ?_) fun _ => ?_
  · exact (Agree.advance hlive).fast fun _ j _ => Agree.skip.slow fun _ => .pure id
  · exact (Agree.advance hlive).fast fun _ j _ => .pure id

theorem targetWithin_agree (token : Token) {n a b : Nat} (ha : n < a) (hb : n < b) (target : Expr) :
    AgreeTry n p Never (targetWithin token a target) (targetWithin token b target) := by
  induction n using Nat.strongRecOn generalizing a b target p with
  | ind n ih =>
  obtain ⟨a, rfl⟩ := Nat.exists_eq_add_of_lt ha
  obtain ⟨b, rfl⟩ := Nat.exists_eq_add_of_lt hb
  refine .look fun s _ => ?_
  have hlive {k : TokenKind} (hk : s.cur.kind = k) (hne : k ≠ .eof) : ∀ l, l = s.cur.kind → l ≠ .eof := by
    rintro _ rfl
    rwa [hk]
  split
  · next hk =>
    refine .ifFail (.failAt _ _) id fun _ => ?_
    refine AgreeTry.fast (indexOrSlice_agree (hlive hk nofun) (fun _ _ => nested_agree) _ _) id ?_
    exact fun target j hj => ih j hj (by omega) (by omega) _
  · next hk =>
    refine AgreeTry.fast (field_agree (hlive hk nofun) _) id fun target j hj => ?_
    exact ih j hj (by omega) (by omega) _
  · exact .pure id

theorem assignTarget_agree (hp : ∀ k, p k → k ≠ .eof) :
    AgreeTry n p Succeeds assignTarget assignTarget := by
  refine .look fun s hs => .liftFast (.advanceFrom (hp _ hs)) fun _ j _ => ?_
  refine .ifFail (.failAt _ _) id fun _ => .liftStill (.readVar? _) fun v? => ?_
  cases v? with
  | none => exact .fails (.failAt _ _) id
  | some v => exact .fuel fun t i _ hlt => targetWithin_agree _ hlt hlt _

theorem assignment_agree (hp : ∀ k, p k → k ≠ .eof) : AgreeTry n p Always assignment assignment := by
  refine .orNextLine_always hp ?_
  refine .look fun s hs => .look fun t ht => .ifFail (.fail _) not_succeeds_none fun _ => ?_
  have hlive : ∀ k, k = t.cur.kind → k ≠ .eof := fun k hk => hk ▸ ht ▸ hp _ hs
  refine AgreeTry.fast (assignTarget_agree hlive) not_succeeds_none fun target j _ => ?_
  refine .liftStill (.expect _) fun _ => .liftSlow .skip fun _ => ?_
  refine AgreeTry.slow (topLevelExpr_agree.weaken (Nat.le_refl _)) id fun value => ?_
  extract_lets rest
  have hrest (u : Unit) : AgreeTry j Any Never (rest u) (rest u) :=
    .liftStill .expectLineEnd fun _ => .look fun _ _ => .liftSlow .nextLine fun _ => .pure id
  exact .ite (fun _ => hrest ()) fun _ => .liftStill (.reportAt _ _) hrest

theorem callStmt_agree (hp : ∀ k, p k → k ≠ .eof) : AgreeTry n p Always callStmt callStmt := by
  refine .orNextLine_always hp ?_
  refine AgreeTry.fast (call_agree hp fun _ _ => nested_agree) not_succeeds_none fun c j _ => ?_
  exact .liftStill .expectLineEnd fun _ => .look fun _ _ => .liftSlow .nextLine fun _ => .pure id

theorem returnStmt_agree (hp : ∀ k, p k → k ≠ .eof) : Agree n p Always returnStmt returnStmt := by
  refine .look fun s hs => (Agree.advanceFrom (hp _ hs)).fast fun _ j _ => ?_
  refine .look fun t _ => .look fun u _ => ?_
  extract_lets finish afterValue
  have hfinish (u : Unit) (value : Option Expr) : Agree j Any Never (finish u value) (finish u value) :=
    .look fun _ _ => Agree.nextLine.slow fun _ => .pure id
  have hafter (value : Option Expr) : Agree j Any Never (afterValue value) (afterValue value) := by
    have hreport (problem : Problem) : Agree j Any Never
        (do let u ← reportAt t.cur problem; finish u value) (do let u ← reportAt t.cur problem; finish u value) :=
      .still (.reportAt _ _) fun u => hfinish u value
    refine .ite (fun _ => .still .expectLineEnd fun _ => .state fun v _ => ?_) fun _ => .state fun v _ => ?_
    all_goals
      split
      · exact (hreport _).weaken (Nat.le_refl _)
      · refine .ite (fun _ => (hfinish () _).weaken (Nat.le_refl _)) fun _ => ?_
        exact .ite (fun _ => (hreport _).weaken (Nat.le_refl _)) fun _ => (hreport _).weaken (Nat.le_refl _)
  refine .ite (fun _ => (hafter none).weaken (Nat.le_refl _)) fun _ => ?_
  exact (topLevelExpr_agree.weaken (Nat.le_refl _)).slow hafter

theorem breakStmt_agree (hp : ∀ k, p k → k ≠ .eof) : Agree n p Always breakStmt breakStmt := by
  refine .look fun s hs => .state fun t ht => ?_
  have hlive : ∀ k, k = t.cur.kind → k ≠ .eof := fun k hk => hk ▸ ht ▸ hp _ hs
  extract_lets rest
  have hrest (u : Unit) : Agree n (· = t.cur.kind) Always (rest u) (rest u) :=
    (Agree.advance hlive).fast fun _ j _ => .still .expectLineEnd fun _ => .look fun _ _ =>
      Agree.nextLine.slow fun _ => .pure id
  exact .ite (fun _ => hrest ()) fun _ => .still (.report _) hrest

/-! ### Statements with blocks -/

/-- Two parsers for nested blocks that agree wherever a block ends at the end of input at the latest. -/
def BlocksAgree (n : Nat) (block block' : Blocks) : Prop :=
  ∀ ends : List TokenKind, .eof ∈ ends → Agree n Any Never (block ends) (block' ends)

theorem blockEnd_agree : Agree n p Never blockEnd blockEnd :=
  .still (.expect _) fun _ => Agree.skip.slow fun _ => .look fun _ _ => Agree.nextLine.slow fun _ =>
    .pure id

theorem condition_agree : AgreeTry n Any Succeeds condition condition := by
  refine .look fun s _ => ?_
  have hcondition := (topLevelExpr_agree (n := n)).mono (q := (· = s.cur.kind)) n.le_refl
    (fun k _ => trivial) fun _ => id
  refine AgreeTry.fast hcondition not_succeeds_none fun e j _ => ?_
  refine .liftStill .expectLineEnd fun _ => ?_
  exact .ite (fun _ => .pure id) fun _ => .liftStill (.reportAt _ _) fun _ => .pure id

theorem branch_agree (h : BlocksAgree n block block') {ends : List TokenKind} (hends : .eof ∈ ends) :
    Agree n p Never (branch block ends) (branch block' ends) := by
  refine .look fun s hs => Agree.skip.slow fun _ => ?_
  refine (condition_agree.weaken (Nat.le_refl _)).slow fun condition => .look fun _ _ => ?_
  exact Agree.nextLine.slow fun _ => (h ends hends).slow fun _ => .pure id

/-- The block of a branch starts after its keyword. -/
theorem branch_live_agree (hp : ∀ k, p k → k ≠ .eof) (h : ∀ j < n, BlocksAgree j block block')
    {ends : List TokenKind} (hends : .eof ∈ ends) :
    Agree n p Always (branch block ends) (branch block' ends) := by
  refine .look fun s hs => (Agree.advanceFrom (hp _ hs)).fast fun _ j hj => ?_
  refine (condition_agree.weaken (Nat.le_refl _)).slow fun condition => .look fun _ _ => ?_
  exact Agree.nextLine.slow fun _ => (h j hj ends hends).slow fun _ => .pure id

theorem leaveScope_stays : Stays leaveScope := by
  refine Stays.get.bind fun s => Stays.bind (fun _ => ⟨rfl, rfl, rfl⟩) fun _ => ?_
  exact .forM (fun v => .reportAt _ _) _

theorem enterScope_stays (kind : ScopeKind) : Stays (enterScope kind) := fun _ => ⟨rfl, rfl, rfl⟩

theorem enterScopeWith_stays (kind : ScopeKind) (result : Option Ty) :
    Stays (enterScopeWith kind result) := fun _ => ⟨rfl, rfl, rfl⟩

theorem whileStmt_agree (hp : ∀ k, p k → k ≠ .eof) (h : ∀ j < n, BlocksAgree j block block') :
    AgreeTry n p Always (whileStmt block) (whileStmt block') := by
  refine Agree.look fun s hs => (Agree.advanceFrom (hp _ hs)).fast fun _ j hj => ?_
  refine .still (enterScope_stays _) fun _ => ?_
  refine (condition_agree.weaken (Nat.le_refl _)).slow fun condition => .look fun _ _ => ?_
  refine Agree.nextLine.slow fun _ => (h j hj _ (by simp)).slow fun body => ?_
  exact .still leaveScope_stays fun _ => blockEnd_agree.slow fun _ => .pure id

theorem scopedBranch_agree (h : BlocksAgree n block block') :
    Agree n p Never (scopedBranch block) (scopedBranch block') :=
  .still (enterScope_stays _) fun _ => (branch_agree h (by simp)).slow fun b =>
    .still leaveScope_stays fun _ => .pure id

theorem scopedBranch_live_agree (hp : ∀ k, p k → k ≠ .eof) (h : ∀ j < n, BlocksAgree j block block') :
    Agree n p Always (scopedBranch block) (scopedBranch block') := by
  refine .still (enterScope_stays _) fun _ => (branch_live_agree hp h (by simp)).fast fun b j _ => ?_
  exact .still leaveScope_stays fun _ => .pure id

theorem moreBranches_agree (h : ∀ j < n, BlocksAgree j block block') {a b : Nat} (ha : n < a) (hb : n < b)
    (done : Array (Option Branch)) :
    Agree n p Never (moreBranches block a done) (moreBranches block' b done) := by
  induction n using Nat.strongRecOn generalizing a b done p with
  | ind n ih =>
  obtain ⟨a, rfl⟩ := Nat.exists_eq_add_of_lt ha
  obtain ⟨b, rfl⟩ := Nat.exists_eq_add_of_lt hb
  refine .state fun s _ => .ite (fun hk => ?_) fun _ => .pure id
  have helse : s.cur.kind ≠ .eof := by
    rw [Bool.and_eq_true, decide_eq_true_eq] at hk
    rw [hk.1]
    nofun
  refine (Agree.advanceFrom helse).fast fun _ j hj => (scopedBranch_agree (h j hj)).slow fun b => ?_
  exact (ih j hj (fun i hi => h i (Nat.lt_trans hi hj)) (by omega) (by omega) _).weaken (Nat.le_refl _)

theorem otherwise_agree (h : ∀ j < n, BlocksAgree j block block') :
    Agree n p Never (otherwise block) (otherwise block') := by
  refine .look fun s _ => .ite (fun _ => .pure id) fun hk => ?_
  have helse : s.cur.kind ≠ .eof := by
    rw [Decidable.not_not.1 hk]
    nofun
  refine (Agree.advanceFrom helse).fast fun _ j hj => .still .expectLineEnd fun _ => .look fun _ _ => ?_
  refine Agree.nextLine.slow fun _ => .still (enterScope_stays _) fun _ => ?_
  refine ((h j hj _ (by simp)).weaken (Nat.le_refl _)).slow fun body => ?_
  exact .still leaveScope_stays fun _ => .pure id

theorem ifStmt_agree (hp : ∀ k, p k → k ≠ .eof) (h : ∀ j < n, BlocksAgree j block block') :
    AgreeTry n p Always (ifStmt block) (ifStmt block') := by
  refine Agree.look fun s hs => ?_
  refine (scopedBranch_live_agree (by rintro _ rfl; exact hp _ hs) h).fast fun first j hj => ?_
  have hj' : ∀ i < j, BlocksAgree i block block' := fun i hi => h i (Nat.lt_trans hi hj)
  refine .fuel fun t i hi hlt => ?_
  have hi' : ∀ k < i, BlocksAgree k block block' := fun k hk => hj' k (Nat.lt_of_lt_of_le hk hi)
  refine (moreBranches_agree hi' hlt hlt _).slow fun more => (otherwise_agree hi').slow fun last => ?_
  exact blockEnd_agree.slow fun _ => .pure id

theorem stepRange_stays (args : List Expr) (token : Token) : Stays (stepRange args token).run := by
  unfold stepRange
  extract_lets finish judge
  have hfinish (u : PUnit) : Stays (finish u).run := by
    dsimp only [finish]
    split <;> exact .pure _
  have hjudge (u : PUnit) : Stays (judge u).run := by
    dsimp only [judge]
    split
    · exact Stays.tryBind (Fails.failAt _ _).1 hfinish
    · exact hfinish ⟨⟩
  split
  · exact Stays.tryBind (Fails.failAt _ _).1 hjudge
  · exact hjudge ⟨⟩

theorem rangeOf_stays (first : Expr) (args : List Expr) (token : Token) :
    Stays (rangeOf first args token) := by
  unfold rangeOf
  dsimp only
  split
  · exact .pure _
  · exact .pure _
  · exact .pure _
  · exact (stepRange_stays args token).bind fun _ => .pure _
  · exact (Stays.report _).bind fun _ => .pure _

theorem loopVar_agree : AgreeTry n p Never loopVar loopVar := by
  refine .look fun s _ => .ite (fun _ => .pure id) fun _ => ?_
  refine .liftStill (checkDecl_stays _ _) fun ok => .unlessFail .failure id fun _ => ?_
  exact .liftSlow .skip fun _ => .liftStill (.expect _) fun _ => .liftSlow .skip fun _ => .pure id

theorem eachHead_agree : AgreeTry n p Never eachHead eachHead := by
  refine .orNextLine ?_ id
  refine AgreeTry.slow loopVar_agree id fun var => AgreeTry.slow (.require _) id fun _ => ?_
  refine .look fun s _ => .liftSlow .skip fun _ => ?_
  refine AgreeTry.slow (exprList_agree nested_agree) id fun args => ?_
  cases args with
  | nil => exact .fails (.fail _) id
  | cons first rest =>
    refine .ifFail (.fail _) id fun _ => .liftStill .expectLineEnd fun _ => ?_
    exact .liftStill (rangeOf_stays _ _ _) fun _ => .pure id

theorem eachBody_agree (hp : ∀ k, p k → k ≠ .eof) (h : ∀ j < n, BlocksAgree j block block')
    (token : Token) : AgreeTry n p Always (eachBody block token) (eachBody block' token) := by
  refine .liftFast (.advance hp) fun _ j hj => AgreeTry.slow eachHead_agree id fun head => ?_
  extract_lets var
  refine .still (.tryForM declareVar_stays _) id fun _ => .look fun _ _ => .liftSlow .nextLine fun _ => ?_
  refine .liftSlow (h j hj _ (by simp)) fun body => .liftStill leaveScope_stays fun _ => ?_
  refine .liftSlow blockEnd_agree fun endComment => ?_
  split
  · exact .pure id
  · exact .failure id

theorem eachStmt_agree (hp : ∀ k, p k → k ≠ .eof) (h : ∀ j < n, BlocksAgree j block block') :
    AgreeTry n p Always (eachStmt block) (eachStmt block') := by
  refine Agree.look fun s hs => .still (enterScope_stays _) fun _ => ?_
  refine Agree.fast (eachBody_agree (by rintro _ rfl; exact hp _ hs) h _) fun stmt j _ => ?_
  refine .ite (fun _ => .still (fun _ => ⟨rfl, rfl, rfl⟩) fun _ => .pure id) fun _ => .pure id

theorem statement_agree (h : ∀ j < n, BlocksAgree j block block') :
    AgreeTry n Live Always (statement block) (statement block') := by
  refine .state fun s hs => ?_
  have hlive : ∀ k, k = s.cur.kind → k ≠ .eof := fun _ hk => hk ▸ hs
  have hnone (problem : Problem) : AgreeTry n (· = s.cur.kind) Always
      (orNextLine (fail problem : Attempt Stmt)) (orNextLine (fail problem)) :=
    .orNextLine_always hlive (.fails (.fail _) not_succeeds_none)
  split
  · exact .liftFast (.advance hlive) fun _ j _ => .failure id
  · exact .lift (emptyLine_agree hlive)
  · exact .lift (emptyLine_agree hlive)
  · generalize s.peek.kind = next
    split
    · exact assignment_agree hlive
    · exact assignment_agree hlive
    · exact .lift (typedDecl_agree hlive)
    · exact inferredDecl_agree hlive
    · refine .ite (fun _ => callStmt_agree hlive) fun _ => ?_
      exact .ite (fun _ => assignment_agree hlive) fun _ => hnone _
  · exact .lift (returnStmt_agree hlive)
  · exact .lift (breakStmt_agree hlive)
  · exact eachStmt_agree hlive h
  · exact whileStmt_agree hlive h
  · exact ifStmt_agree hlive h
  · exact hnone _

/-! ### Blocks -/

theorem stmtsWithin_agree (h : ∀ j < n, BlocksAgree j block block') {ends : List TokenKind}
    (hends : .eof ∈ ends) {a b : Nat} (ha : n < a) (hb : n < b) (done : Array Stmt) (terminated : Bool) :
    Agree n p Never (stmtsWithin block ends a done terminated) (stmtsWithin block' ends b done terminated) := by
  induction n using Nat.strongRecOn generalizing a b done terminated p with
  | ind n ih =>
  obtain ⟨a, rfl⟩ := Nat.exists_eq_add_of_lt ha
  obtain ⟨b, rfl⟩ := Nat.exists_eq_add_of_lt hb
  refine .look fun s _ => .ite (fun _ => .pure id) fun hgo => ?_
  have hlive : s.cur.kind ≠ .eof := by
    rintro heof
    rw [heof] at hgo
    exact hgo (List.contains_iff_mem.2 hends)
  have hstmt := (statement_agree h).mono (q := (· = s.cur.kind)) n.le_refl (fun k hk => hk ▸ hlive) fun _ => id
  refine Agree.fast hstmt fun stmt j hj => ?_
  have hloop (done : Array Stmt) (terminated : Bool) : Agree j Any Never
      (stmtsWithin block ends (n + a) done terminated) (stmtsWithin block' ends (n + b) done terminated) :=
    ih j hj (fun i hi => h i (Nat.lt_trans hi hj)) (by omega) (by omega) _ _
  cases stmt with
  | none => exact hloop _ _
  | some stmt => exact .ite (fun _ => .still (.reportAt _ _) fun _ => hloop _ _) fun _ => hloop _ _

/-- A block nested in a statement starts after the first token of the statement. -/
theorem blockBy_agree (h : ∀ j < n, BlocksAgree j block block') : BlocksAgree n (blockBy block) (blockBy block') := by
  intro ends hends
  refine .look fun s _ => .fuel fun t i hi hlt => ?_
  have hbelow : ∀ j < i, BlocksAgree j block block' := fun j hj => h j (Nat.lt_of_lt_of_le hj hi)
  refine (stmtsWithin_agree hbelow hends hlt hlt _ _).slow fun stmts => ?_
  exact .ite (fun _ => .still (.reportAt _ _) fun _ => .pure id) fun _ => .pure id

/-- A bound above the number of tokens left is never reached, so it does not matter what is done there. -/
theorem iterate_blockBy_agree {bottom bottom' : Blocks} {a b : Nat} (ha : n < a) (hb : n < b) :
    BlocksAgree n (blockBy^[a] bottom) (blockBy^[b] bottom') := by
  induction n using Nat.strongRecOn generalizing a b with
  | ind n ih =>
  obtain ⟨a, rfl⟩ := Nat.exists_eq_add_of_lt ha
  obtain ⟨b, rfl⟩ := Nat.exists_eq_add_of_lt hb
  rw [Function.iterate_succ_apply', Function.iterate_succ_apply']
  exact blockBy_agree fun j hj => ih j hj (by omega) (by omega)

theorem blockWithin_eq_iterate (fuel : Nat) : blockWithin fuel = blockBy^[fuel] fun _ => return default := by
  induction fuel with
  | zero => rfl
  | succ fuel ih => rw [Function.iterate_succ_apply', ← ih]; rfl

theorem block_agree : BlocksAgree n Parsing.block Parsing.block :=
  fun ends hends => .fuel fun s _ _ hlt => blockWithin_eq_iterate s.fuel ▸ iterate_blockBy_agree hlt hlt ends hends

/-! ### Functions and handlers -/

theorem live_of_not_atLineEnd {s : State} (h : ¬ s.atLineEnd) : s.cur.kind ≠ .eof := by
  intro heof
  exact h (by simp [State.atLineEnd, heof])

theorem paramsWithin_agree {n a b : Nat} (ha : n < a) (hb : n < b) (done : Array Var) :
    Agree n p Never (paramsWithin a done) (paramsWithin b done) := by
  induction n using Nat.strongRecOn generalizing a b done p with
  | ind n ih =>
  obtain ⟨a, rfl⟩ := Nat.exists_eq_add_of_lt ha
  obtain ⟨b, rfl⟩ := Nat.exists_eq_add_of_lt hb
  refine .look fun s _ => .look fun t ht => .ite (fun _ => .pure id) fun hgo => ?_
  have hlive : t.cur.kind ≠ .eof := by
    rw [ht]
    exact live_of_not_atLineEnd fun h => hgo (by simp [h])
  refine .still (.expect _) fun _ => (typedVar_agree (by rintro _ rfl; exact hlive)).fast fun v j hj => ?_
  exact ih j hj (by omega) (by omega) _

theorem eventParamsWithin_agree {n a b : Nat} (ha : n < a) (hb : n < b) (done : Array Var) :
    Agree n p Never (eventParamsWithin a done) (eventParamsWithin b done) := by
  induction n using Nat.strongRecOn generalizing a b done p with
  | ind n ih =>
  obtain ⟨a, rfl⟩ := Nat.exists_eq_add_of_lt ha
  obtain ⟨b, rfl⟩ := Nat.exists_eq_add_of_lt hb
  refine .look fun s _ => .ite (fun _ => .pure id) fun hgo => ?_
  have hlive : s.cur.kind ≠ .eof := live_of_not_atLineEnd hgo
  refine .still (.expect _) fun _ => (typedVar_agree (by rintro _ rfl; exact hlive)).fast fun v j hj => ?_
  exact ih j hj (by omega) (by omega) _

theorem signature_agree : AgreeTry n p Never signature signature := by
  refine .look fun s _ => .liftSlow .skip fun _ => ?_
  refine AgreeTry.slow (.orNextLine (.require _) id) id fun _ => .look fun t _ => .liftSlow .skip fun _ => ?_
  refine .look fun u _ => ?_
  extract_lets _ _ rest
  have hrest (v : Unit) (result : Ty) : AgreeTry n Any Never (rest v result) (rest v result) := by
    refine .fuel fun w i _ hlt => .liftSlow (paramsWithin_agree hlt hlt _) fun params => .look fun w _ => ?_
    extract_lets finish
    have hfinish (v : Unit) (params : List Var) (variadic : Option Var) :
        AgreeTry i Any Never (finish v params variadic) (finish v params variadic) :=
      .liftStill .expectLineEnd fun _ => .liftSlow .nextLine fun _ => .pure id
    refine .ite (fun _ => .liftSlow .skip fun _ => ?_) fun _ => (hfinish () _ _).weaken (Nat.le_refl _)
    split
    · exact hfinish () _ _
    · exact .liftStill (.report _) fun v => hfinish v _ _
  refine .ite (fun _ => ?_) fun _ => (hrest () _).weaken (Nat.le_refl _)
  refine .liftSlow .skip fun _ => .liftSlow type_agree fun result => .ite (fun _ => ?_) fun _ => hrest () _
  exact .look fun _ _ => .liftStill (.reportAt _ _) fun v => (hrest v _).weaken (Nat.le_refl _)

theorem addSignature_stays (token : Token) (sig : Signature) : Stays (addSignature token sig) := by
  refine Stays.get.bind fun s => ?_
  extract_lets known rest
  have hknown (u : Unit) : Stays (known u) := fun _ => ⟨rfl, rfl, rfl⟩
  have hrest (u : Unit) : Stays (rest u) := by
    dsimp only [rest]
    split
    · exact (Stays.reportAt _ _).bind hknown
    · split
      · exact (Stays.reportAt _ _).bind hknown
      · exact hknown ()
  split
  · exact (Stays.reportAt _ _).bind hrest
  · exact hrest ()

theorem declareParams_stays (sig : Signature) : Stays (declareParams sig) := by
  have hparam (v : Var) (ty : Ty) : Stays (declareParam v ty) :=
    (checkDecl_stays _ _).bind fun _ => declareVar_stays _
  exact (Stays.forM (fun v => hparam v _) _).bind fun _ => .optionForM (fun v => hparam v _) _

theorem function_agree (hp : ∀ k, p k → k ≠ .eof) : AgreeTry n p Always function function := by
  refine .look fun s hs => .liftFast (.advanceFrom (hp _ hs)) fun _ j _ => .look fun t _ => ?_
  refine .liftSlow (.move fun _ => State.leads_toLineEnd) fun _ => .state fun u _ => ?_
  extract_lets comment signature result
  refine .liftSlow .nextLine fun _ => .liftStill (enterScopeWith_stays _ _) fun _ => ?_
  refine .still (.tryForM declareParams_stays _) id fun _ => .liftSlow (block_agree _ (by simp)) fun body => ?_
  refine .liftStill leaveScope_stays fun _ => ?_
  extract_lets rest
  have hrest (v : Unit) : AgreeTry j Any Never (rest v) (rest v) := by
    refine .liftSlow blockEnd_agree fun endComment => ?_
    cases signature with
    | none => exact .failure id
    | some sig =>
      refine .ifFail .failure id fun _ => .state fun w _ => .ifFail .failure id fun _ => ?_
      exact .still (m := modify _) (fun _ => ⟨rfl, rfl, rfl⟩) id fun _ => .pure id
  exact .ite (fun _ => .liftStill (.report _) hrest) fun _ => hrest ()

theorem declareEventParams_stays (params expected : List Var) :
    Stays (declareEventParams params expected) := by
  induction params generalizing expected with
  | nil => exact .pure _
  | cons v params ih =>
    refine (checkDecl_stays _ _).bind fun _ => Stays.bind (.optionForM (fun e => ?_) _) fun _ => ?_
    · split
      · exact .pure _
      · exact .report _
    · exact (declareVar_stays _).bind fun _ => ih _

theorem checkEventParams_stays (name : String) (params : List Var) :
    Stays (checkEventParams name params) := by
  unfold checkEventParams
  split
  · exact .pure _
  · refine Stays.get.bind fun s => ?_
    split
    · exact .pure _
    · split
      · exact (Stays.report _).bind fun _ => declareEventParams_stays _ _
      · exact declareEventParams_stays _ _

theorem handler_agree (hp : ∀ k, p k → k ≠ .eof) : AgreeTry n p Always handler handler := by
  refine .look fun s hs => .liftFast (.advanceFrom (hp _ hs)) fun _ j _ => ?_
  refine AgreeTry.slow (.orNextLine (.require _) id) id fun _ => .look fun t _ => .state fun u _ => ?_
  extract_lets problem
  refine .still (.tryForM (fun p => .report p) _) id fun _ => .liftSlow .skip fun _ => ?_
  refine .fuel fun v i _ hlt => .liftSlow (eventParamsWithin_agree hlt hlt _) fun params => ?_
  refine .look fun _ _ => .liftSlow .nextLine fun _ => .liftStill (enterScopeWith_stays _ _) fun _ => ?_
  refine .liftStill (checkEventParams_stays _ _) fun _ => .liftSlow (block_agree _ (by simp)) fun body => ?_
  refine .liftStill leaveScope_stays fun _ => .liftSlow blockEnd_agree fun endComment => ?_
  refine .ite (fun _ => ?_) fun _ => .pure id
  exact .still (m := modify _) (fun _ => ⟨rfl, rfl, rfl⟩) id fun _ => .pure id

/-! ### Programs -/

theorem programWithin_agree {n a b : Nat} (ha : n < a) (hb : n < b) (done : Array Stmt) (terminated : Bool) :
    Agree n p Never (programWithin a done terminated) (programWithin b done terminated) := by
  induction n using Nat.strongRecOn generalizing a b done terminated p with
  | ind n ih =>
  obtain ⟨a, rfl⟩ := Nat.exists_eq_add_of_lt ha
  obtain ⟨b, rfl⟩ := Nat.exists_eq_add_of_lt hb
  refine .look fun s _ => ?_
  have hlive {k : TokenKind} (hk : s.cur.kind = k) (hne : k ≠ .eof) : ∀ l, l = s.cur.kind → l ≠ .eof := by
    rintro _ rfl
    rwa [hk]
  have hloop {j : Nat} (hj : j < n) (done : Array Stmt) (terminated : Bool) : Agree j Any Never
      (programWithin (n + a) done terminated) (programWithin (n + b) done terminated) :=
    ih j hj (by omega) (by omega) _ _
  split
  · exact .pure id
  · next hk => exact Agree.fast (function_agree (hlive hk nofun)) fun stmt j hj => hloop hj _ _
  · next hk => exact Agree.fast (handler_agree (hlive hk nofun)) fun stmt j hj => hloop hj _ _
  · next hk _ _ =>
    have hstmt := (statement_agree (n := n) fun _ _ => block_agree).mono (q := (· = s.cur.kind)) n.le_refl
      (fun k h => h ▸ hk) fun _ => id
    refine Agree.fast hstmt fun stmt j hj => ?_
    cases stmt with
    | none => exact hloop hj _ _
    | some stmt => exact .ite (fun _ => .still (.reportAt _ _) fun _ => hloop hj _ _) fun _ => hloop hj _ _

end TinyScript.Parsing
