import TinyScript.Proofs.Parsing.StatementProgress

/-!
# The parser ends

Every loop of the parser ends by its own condition, never because its bound is used up, and no bound on
the nesting is ever reached. `Ends` says what holds where a parser ends. Its rules go along with those of
`Agree`: after a step on to another token an induction on the number of tokens left applies.
-/

namespace TinyScript.Parsing

/-! ### Where a parser ends -/

section
variable {α β γ : Type}

/-- With at most `n` tokens left and a current token in `p`, the parser ends in `Q`. -/
def Ends (n : Nat) (p : TokenKind → Prop) (m : Parse α) (Q : α → State → Prop) : Prop :=
  ∀ s : State, s.InRange → s.remaining ≤ n → p s.cur.kind → Q (m.run s).1 (m.run s).2

/-- The attempt ends in `Q` if it has a result. -/
abbrev EndsTry (n : Nat) (p : TokenKind → Prop) (m : Attempt α) (Q : State → Prop) : Prop :=
  Ends n p m.run fun r s => Succeeds r → Q s

namespace Ends
variable {n : Nat} {p : TokenKind → Prop} {m : Parse α} {f : α → Parse β} {Q : β → State → Prop}

theorem pure {a : β} (h : ∀ s : State, p s.cur.kind → Q a s) : Ends n p (pure a) Q :=
  fun s _ _ hp => h s hp

theorem slow (hm : Agree n p Never m m) (hf : ∀ a, Ends n Any (f a) Q) : Ends n p (m >>= f) Q := by
  intro s hs hn hp
  obtain ⟨-, hleads, -⟩ := hm s hs hn hp
  exact hf _ _ (hleads.inRange hs) (Nat.le_trans hleads.remaining_le hn) trivial

theorem fast (hm : Agree n p Always m m) (hf : ∀ a, ∀ j < n, Ends j Any (f a) Q) : Ends n p (m >>= f) Q := by
  intro s hs hn hp
  obtain ⟨-, hleads, hlt⟩ := hm s hs hn hp
  have hfewer := Nat.lt_of_lt_of_le (hleads.remaining_lt (hlt trivial)) hn
  exact hf _ _ hfewer _ (hleads.inRange hs) (Nat.le_refl _) trivial

theorem still (hm : Stays m) (hf : ∀ a, Ends n p (f a) Q) : Ends n p (m >>= f) Q := by
  intro s hs hn hp
  obtain ⟨hpos, htokens, heof⟩ := hm s
  have hcur : (m.run s).2.cur = s.cur := by
    simp only [State.cur, State.tokenAt, hpos, htokens, heof]
  have hin : (m.run s).2.InRange := ⟨by rw [hpos, htokens]; exact hs.pos_le, heof ▸ hs.eof⟩
  have hleft : (m.run s).2.remaining = s.remaining := by rw [State.remaining, hpos, htokens, State.remaining]
  exact hf _ _ hin (hleft ▸ hn) (hcur ▸ hp)

theorem look {g : State → γ} {f : γ → Parse β}
    (h : ∀ s : State, p s.cur.kind → Ends n (· = s.cur.kind) (f (g s)) Q) :
    Ends n p ((do return g (← get)) >>= f) Q :=
  fun s hs hn hp => h s hp s hs hn rfl

/-- What follows does not move. -/
theorem rest {K : TokenKind → Prop} (hm : Ends n p m fun _ t => K t.cur.kind) (hf : ∀ a, Stays (f a)) :
    Ends n p (m >>= f) fun _ t => K t.cur.kind := by
  intro s hs hn hp
  obtain ⟨hpos, htokens, heof⟩ := hf (m.run s).1 (m.run s).2
  have hcur : ((m >>= f).run s).2.cur = (m.run s).2.cur := by
    show ((f (m.run s).1).run (m.run s).2).2.cur = _
    simp only [State.cur, State.tokenAt, hpos, htokens, heof]
  rw [hcur]
  exact hm s hs hn hp

theorem ite {c : Prop} [Decidable c] {m₁ m₂ : Parse β} (h₁ : c → Ends n p m₁ Q) (h₂ : ¬ c → Ends n p m₂ Q) :
    Ends n p (if c then m₁ else m₂) Q := by
  split
  · next h => exact h₁ h
  · next h => exact h₂ h

end Ends

namespace EndsTry
variable {n : Nat} {p : TokenKind → Prop} {m : Attempt α} {f : α → Attempt β} {Q : State → Prop}

theorem pure {a : β} (h : ∀ s : State, p s.cur.kind → Q s) : EndsTry n p (pure a) Q :=
  Ends.pure fun s hp _ => h s hp

theorem fails {m : Attempt β} (hm : Fails m) : EndsTry n p m Q :=
  fun s _ _ _ h => absurd h (hm.2 s ▸ not_succeeds_none)

theorem slow (hm : AgreeTry n p Never m m) (hf : ∀ a, EndsTry n Any (f a) Q) : EndsTry n p (m >>= f) Q := by
  refine Ends.slow (f := fun r => match r with
    | some a => (f a).run
    | none => Pure.pure none) hm fun r => ?_
  cases r with
  | none => exact Ends.pure fun _ _ h => absurd h not_succeeds_none
  | some a => exact hf a

theorem fast (hm : AgreeTry n p Succeeds m m) (hf : ∀ a, ∀ j < n, EndsTry j Any (f a) Q) :
    EndsTry n p (m >>= f) Q := by
  intro s hs hn hp
  obtain ⟨-, hleads, hlt⟩ := hm s hs hn hp
  have hin := hleads.inRange hs
  show Succeeds ((match (m.run.run s).1 with
    | some a => (f a).run
    | none => Pure.pure none) (m.run.run s).2).1 → Q ((match (m.run.run s).1 with
    | some a => (f a).run
    | none => Pure.pure none) (m.run.run s).2).2
  cases hr : (m.run.run s).1 with
  | none => exact fun h => absurd h not_succeeds_none
  | some a =>
    have hfewer := Nat.lt_of_lt_of_le (hleads.remaining_lt (hlt (hr ▸ rfl))) hn
    exact hf a _ hfewer _ hin (Nat.le_refl _) trivial

theorem failsThen {fails : Attempt γ} {f : γ → Attempt β} (hfails : Fails fails) :
    EndsTry n p (fails >>= f) Q := by
  intro s _ _ _
  show Succeeds ((match (fails.run.run s).1 with
    | some a => (f a).run
    | none => Pure.pure none) (fails.run.run s).2).1 → _
  rw [hfails.2 s]
  exact fun h => absurd h not_succeeds_none

theorem liftSlow {m : Parse α} (hm : Agree n p Never m m) (hf : ∀ a, EndsTry n Any (f a) Q) :
    EndsTry n p (liftM m >>= f) Q :=
  Ends.slow (f := fun a => (f a).run) hm hf

theorem liftFast {m : Parse α} (hm : Agree n p Always m m) (hf : ∀ a, ∀ j < n, EndsTry j Any (f a) Q) :
    EndsTry n p (liftM m >>= f) Q :=
  Ends.fast (f := fun a => (f a).run) hm hf

theorem look {g : State → γ} {f : γ → Attempt β}
    (h : ∀ s : State, p s.cur.kind → EndsTry n (· = s.cur.kind) (f (g s)) Q) :
    EndsTry n p (liftM (do return g (← get) : Parse γ) >>= f) Q :=
  Ends.look (f := fun a => (f a).run) h

theorem ite {c : Prop} [Decidable c] {m₁ m₂ : Attempt β} (h₁ : c → EndsTry n p m₁ Q)
    (h₂ : ¬ c → EndsTry n p m₂ Q) : EndsTry n p (if c then m₁ else m₂) Q := by
  split
  · next h => exact h₁ h
  · next h => exact h₂ h

end EndsTry

end

/-! ### Loops in expressions -/

section
variable {n : Nat} {p : TokenKind → Prop} {self : Nested} {block : Blocks}

theorem atListEnd_state (s : State) : (atListEnd.run s).2 = s := by
  have hlook {α : Type} (f : TokenKind → Parse α) : (kind >>= f).run s = (f s.cur.kind).run s := rfl
  unfold atListEnd
  rw [hlook]
  split <;> rfl

theorem exprListWithin_ends (h : NestedAgree n self self) {a : Nat} (ha : n < a) (done : Array Expr) :
    EndsTry n p (exprListWithin self a done) fun t => (atListEnd.run t).1 := by
  induction n using Nat.strongRecOn generalizing a done p with
  | ind n ih =>
  obtain ⟨a, rfl⟩ := Nat.exists_eq_add_of_lt ha
  have hround : EndsTry n Any (do
      let e ← spacedExpr self
      skipBlank
      exprListWithin self (n + a) (done.push e)) fun t => (atListEnd.run t).1 :=
    .fast (spacedExpr_agree h) fun e j hj => .liftSlow Agree.skipBlank fun _ =>
      ih j hj (h.below j hj) (by omega) _
  intro s hs hn _
  have hrun : (exprListWithin self (n + a + 1) done).run.run s =
      (if (atListEnd.run s).1 then pure done.toList else do
        let e ← spacedExpr self
        skipBlank
        exprListWithin self (n + a) (done.push e) : Attempt (List Expr)).run.run s := by
    show (if (atListEnd.run s).1 then _ else _ : Attempt (List Expr)).run.run (atListEnd.run s).2 = _
    rw [atListEnd_state]
  rw [hrun]
  split
  · next hend => exact fun _ => hend
  · exact hround s hs hn trivial

theorem layoutWithin_ends {n a : Nat} (ha : n < a) (done : Array LayoutItem) :
    Ends n p (layoutWithin a done) fun _ t => t.cur.kind ∉ [.nl, .comment, .ws] := by
  induction n using Nat.strongRecOn generalizing a done p with
  | ind n ih =>
  obtain ⟨a, rfl⟩ := Nat.exists_eq_add_of_lt ha
  refine .look fun s _ => ?_
  split
  · next hk =>
    exact .fast (Agree.advanceOneFrom (by rw [hk]; nofun)) fun _ j hj => ih j hj (by omega) _
  · next hk =>
    refine .fast (Agree.advanceOneFrom (by rw [hk]; nofun)) fun _ j hj => .still (.expect _) fun _ => ?_
    exact .slow .skipOne fun _ => ih j hj (by omega) _
  · next hk =>
    exact .fast (Agree.advanceOneFrom (by rw [hk]; nofun)) fun _ j hj => ih j hj (by omega) _
  · next hnl hcomment hws =>
    refine .pure fun t ht => ?_
    rw [ht]
    simpa using ⟨hnl, hcomment, hws⟩

theorem elementsWithin_ends (h : NestedAgree n self self) {a : Nat} (ha : n < a)
    (layout : Array LayoutItem) (elems : Array Expr) :
    EndsTry n p (elementsWithin self a layout elems) fun t => t.cur.kind = .rBracket ∨ t.cur.kind = .eof := by
  induction n using Nat.strongRecOn generalizing a layout elems p with
  | ind n ih =>
  obtain ⟨a, rfl⟩ := Nat.exists_eq_add_of_lt ha
  refine .look fun s _ => ?_
  split
  · next hk => exact .pure fun t ht => .inl (ht.trans hk)
  · next hk => exact .pure fun t ht => .inr (ht.trans hk)
  · have hfirst := (spacedExpr_agree h).mono (q := (· = s.cur.kind)) n.le_refl (fun _ _ => trivial)
      fun _ => id
    refine .fast hfirst fun e j hj => .liftSlow (layoutItems_agree _) fun layout => ?_
    exact ih j hj (h.below j hj) (by omega) _ _

theorem pairsWithin_ends (h : NestedAgree n self self) {a : Nat} (ha : n < a)
    (layout : Array LayoutItem) (pairs : Array (String × Expr)) :
    EndsTry n p (pairsWithin self a layout pairs) fun t => t.cur.kind = .rCurly ∨ t.cur.kind = .eof := by
  induction n using Nat.strongRecOn generalizing a layout pairs p with
  | ind n ih =>
  obtain ⟨a, rfl⟩ := Nat.exists_eq_add_of_lt ha
  refine .look fun s _ => ?_
  dsimp only
  split
  · next hk => exact .pure fun t ht => .inl (ht.trans hk)
  · next hk => exact .pure fun t ht => .inr (ht.trans hk)
  · next hk =>
    refine .ite (fun _ => .failsThen (.fail _)) fun _ => ?_
    refine .liftFast (.advanceFrom (by rw [hk]; nofun)) fun _ j hj => .slow (.require _) fun _ => ?_
    have hvalue := (spacedExpr_agree (h.below j hj)).weaken (p := Any) (Nat.le_refl _)
    refine .liftSlow .skip fun _ => .slow hvalue fun value => .liftSlow (layoutItems_agree _) fun layout => ?_
    exact ih j hj (h.below j hj) (by omega) _ _
  · exact .fails (.fail _)

/-- The operators after an operand end where the expression does, or before one that binds less. -/
def State.EndsOperators (s : State) (q : Precedence) : Prop :=
  (atExprEnd.run s).1 ∨ (precedenceOf s.cur.kind).level ≤ q.level

theorem operatorsWithin_ends {q : Precedence} (h : ∀ j < n, NestedAgree j self self) {a : Nat} (ha : n < a)
    (left : Expr) : EndsTry n p (operatorsWithin self q a left) fun t => t.EndsOperators q := by
  induction n using Nat.strongRecOn generalizing a left p with
  | ind n ih =>
  obtain ⟨a, rfl⟩ := Nat.exists_eq_add_of_lt ha
  have hround : EndsTry n Live (do
      let left ← afterOperand self left
      operatorsWithin self q (n + a) left) fun t => t.EndsOperators q :=
    .fast (afterOperand_agree (fun _ => id) h left) fun e j hj =>
      ih j hj (fun i hi => h i (Nat.lt_trans hi hj)) (by omega) _
  intro s hs hn _
  have hrun : (operatorsWithin self q (n + a + 1) left).run.run s =
      (if (atExprEnd.run s).1 || (precedenceOf s.cur.kind).level ≤ q.level then pure left else do
        let left ← afterOperand self left
        operatorsWithin self q (n + a) left : Attempt Expr).run.run s := rfl
  rw [hrun]
  split
  · next hend =>
    have hends : s.EndsOperators q := by simpa [State.EndsOperators] using hend
    exact fun _ => hends
  · next hgo =>
    refine hround s hs hn fun heof => hgo ?_
    simp [heof, precedenceOf, Precedence.level]

/-! ### Loops in statements -/

theorem targetWithin_ends (token : Token) {n a : Nat} (ha : n < a) (target : Expr) :
    EndsTry n p (targetWithin token a target) fun t => t.cur.kind ∉ [.lBracket, .dot] := by
  induction n using Nat.strongRecOn generalizing a target p with
  | ind n ih =>
  obtain ⟨a, rfl⟩ := Nat.exists_eq_add_of_lt ha
  refine .look fun s _ => ?_
  have hlive {k : TokenKind} (hk : s.cur.kind = k) (hne : k ≠ .eof) : ∀ l, l = s.cur.kind → l ≠ .eof := by
    rintro _ rfl
    rwa [hk]
  split
  · next hk =>
    refine .ite (fun _ => .failsThen (.failAt _ _)) fun _ => ?_
    refine .fast (indexOrSlice_agree (hlive hk nofun) (fun _ _ => nested_agree) _ _) ?_
    exact fun target j hj => ih j hj (by omega) _
  · next hk => exact .fast (field_agree (hlive hk nofun) _) fun target j hj => ih j hj (by omega) _
  · next hbracket hdot =>
    refine .pure fun t ht => ?_
    rw [ht]
    simpa using ⟨hbracket, hdot⟩

theorem moreBranches_ends (h : ∀ j < n, BlocksAgree j block block) {a : Nat} (ha : n < a)
    (done : Array (Option Branch)) :
    Ends n p (moreBranches block a done) fun _ t => ¬ (t.cur.kind = .else ∧ t.peek.kind = .if) := by
  induction n using Nat.strongRecOn generalizing a done p with
  | ind n ih =>
  obtain ⟨a, rfl⟩ := Nat.exists_eq_add_of_lt ha
  have hround : Ends n Live (do
      advance
      let b ← scopedBranch block
      moreBranches block (n + a) (done.push b)) fun _ t => ¬ (t.cur.kind = .else ∧ t.peek.kind = .if) :=
    .fast (Agree.advance fun _ => id) fun _ j hj => .slow (scopedBranch_agree (h j hj)) fun b =>
      ih j hj (fun i hi => h i (Nat.lt_trans hi hj)) (by omega) _
  intro s hs hn _
  have hrun : (moreBranches block (n + a + 1) done).run s =
      (if s.cur.kind = .else && s.peek.kind = .if then do
        advance
        let b ← scopedBranch block
        moreBranches block (n + a) (done.push b)
      else pure done.toList : Parse (List (Option Branch))).run s := rfl
  rw [hrun]
  split
  · next hmore =>
    refine hround s hs hn fun heof => ?_
    simp [heof] at hmore
  · next hend =>
    have hends : ¬ (s.cur.kind = .else ∧ s.peek.kind = .if) := by simpa using hend
    exact hends

theorem stmtsWithin_ends (h : ∀ j < n, BlocksAgree j block block) {ends : List TokenKind}
    (hends : .eof ∈ ends) {a : Nat} (ha : n < a) (done : Array Stmt) (terminated : Bool) :
    Ends n p (stmtsWithin block ends a done terminated) fun _ t => t.cur.kind ∈ ends := by
  induction n using Nat.strongRecOn generalizing a done terminated p with
  | ind n ih =>
  obtain ⟨a, rfl⟩ := Nat.exists_eq_add_of_lt ha
  refine .look fun s _ => .ite (fun hend => .pure fun t ht => ?_) fun hgo => ?_
  · rw [ht]
    exact List.contains_iff_mem.1 hend
  · have hlive : s.cur.kind ≠ .eof := by
      intro heof
      rw [heof] at hgo
      exact hgo (List.contains_iff_mem.2 hends)
    have hstmt := (statement_agree h).mono (q := (· = s.cur.kind)) n.le_refl (fun k hk => hk ▸ hlive)
      fun _ => id
    refine .fast hstmt fun stmt j hj => ?_
    have hloop (done : Array Stmt) (terminated : Bool) :
        Ends j Any (stmtsWithin block ends (n + a) done terminated) fun _ t => t.cur.kind ∈ ends :=
      ih j hj (fun i hi => h i (Nat.lt_trans hi hj)) (by omega) _ _
    cases stmt with
    | none => exact hloop _ _
    | some stmt => exact .ite (fun _ => .still (.reportAt _ _) fun _ => hloop _ _) fun _ => hloop _ _

theorem paramsWithin_ends {n a : Nat} (ha : n < a) (done : Array Var) :
    Ends n p (paramsWithin a done) fun _ t => t.atLineEnd ∨ t.cur.kind = .dot3 := by
  induction n using Nat.strongRecOn generalizing a done p with
  | ind n ih =>
  obtain ⟨a, rfl⟩ := Nat.exists_eq_add_of_lt ha
  have hround : Ends n Live (do
      let _ ← expect .ident
      let typed ← typedVar
      paramsWithin (n + a) (done.push typed.1)) fun _ t => t.atLineEnd ∨ t.cur.kind = .dot3 :=
    .still (.expect _) fun _ => .fast (typedVar_agree fun _ => id) fun _ j hj => ih j hj (by omega) _
  intro s hs hn _
  have hrun : (paramsWithin (n + a + 1) done).run s =
      (if s.atLineEnd || s.cur.kind = .dot3 then pure done.toList else do
        let _ ← expect .ident
        let typed ← typedVar
        paramsWithin (n + a) (done.push typed.1) : Parse (List Var)).run s := rfl
  rw [hrun]
  split
  · next hend =>
    have hends : s.atLineEnd ∨ s.cur.kind = .dot3 := by simpa using hend
    exact hends
  · next hgo => exact hround s hs hn (live_of_not_atLineEnd fun h => hgo (by simp [h]))

theorem eventParamsWithin_ends {n a : Nat} (ha : n < a) (done : Array Var) :
    Ends n p (eventParamsWithin a done) fun _ t => t.atLineEnd := by
  induction n using Nat.strongRecOn generalizing a done p with
  | ind n ih =>
  obtain ⟨a, rfl⟩ := Nat.exists_eq_add_of_lt ha
  have hround : Ends n Live (do
      let _ ← expect .ident
      let typed ← typedVar
      eventParamsWithin (n + a) (done.push typed.1)) fun _ t => t.atLineEnd :=
    .still (.expect _) fun _ => .fast (typedVar_agree fun _ => id) fun _ j hj => ih j hj (by omega) _
  intro s hs hn _
  have hrun : (eventParamsWithin (n + a + 1) done).run s =
      (if s.atLineEnd then pure done.toList else do
        let _ ← expect .ident
        let typed ← typedVar
        eventParamsWithin (n + a) (done.push typed.1) : Parse (List Var)).run s := rfl
  rw [hrun]
  split
  · next hend => exact hend
  · next hgo => exact hround s hs hn (live_of_not_atLineEnd hgo)

theorem programWithin_ends {n a : Nat} (ha : n < a) (done : Array Stmt) (terminated : Bool) :
    Ends n p (programWithin a done terminated) fun _ t => t.cur.kind = .eof := by
  induction n using Nat.strongRecOn generalizing a done terminated p with
  | ind n ih =>
  obtain ⟨a, rfl⟩ := Nat.exists_eq_add_of_lt ha
  refine .look fun s _ => ?_
  have hlive {k : TokenKind} (hk : s.cur.kind = k) (hne : k ≠ .eof) : ∀ l, l = s.cur.kind → l ≠ .eof := by
    rintro _ rfl
    rwa [hk]
  have hloop {j : Nat} (hj : j < n) (done : Array Stmt) (terminated : Bool) :
      Ends j Any (programWithin (n + a) done terminated) fun _ t => t.cur.kind = .eof :=
    ih j hj (by omega) _ _
  split
  · next hk => exact .pure fun t ht => ht.trans hk
  · next hk => exact .fast (function_agree (hlive hk nofun)) fun stmt j hj => hloop hj _ _
  · next hk => exact .fast (handler_agree (hlive hk nofun)) fun stmt j hj => hloop hj _ _
  · next hk _ _ =>
    have hstmt := (statement_agree (n := n) fun _ _ => block_agree).mono (q := (· = s.cur.kind)) n.le_refl
      (fun k h => h ▸ hk) fun _ => id
    refine .fast hstmt fun stmt j hj => ?_
    cases stmt with
    | none => exact hloop hj _ _
    | some stmt => exact .ite (fun _ => .still (.reportAt _ _) fun _ => hloop hj _ _) fun _ => hloop hj _ _

end

/-! ### What every part of the parser does -/

/-- The parser ends within the tokens, no earlier than it began. -/
def Stands {α : Type} (m : Parse α) (s : State) : Prop :=
  s.Leads (m.run s).2

/-- The parser ends within the tokens, later than it began. -/
def Strides {α : Type} (m : Parse α) (s : State) : Prop :=
  Stands m s ∧ s.pos < (m.run s).2.pos

/-- Every move and every construct keeps within the tokens. Statements, functions and handlers take up a
token, and so do expressions that are read. -/
structure State.MakesProgress (s : State) : Prop where
  moves : ∀ move ∈ [advanceOne, skipBlank, advance, toLineEnd, nextLine, popSpacing], s.Leads (move s)
  type : Stands type s
  expr : ∀ p, Stands (nested p).run s ∧ (Succeeds ((nested p).run.run s).1 → Strides (nested p).run s)
  topLevelExpr : Stands topLevelExpr.run s ∧
    (Succeeds (topLevelExpr.run.run s).1 → Strides topLevelExpr.run s)
  block : ∀ ends : List TokenKind, .eof ∈ ends → Stands (block ends) s
  statement : s.cur.kind ≠ .eof → Strides (statement Parsing.block).run s
  signature : Stands signature.run s
  function : s.cur.kind ≠ .eof → Strides function.run s
  handler : s.cur.kind ≠ .eof → Strides handler.run s

/-- The result of an attempt stands where `Q` holds. -/
def StopsAt {α : Type} (m : Attempt α) (s : State) (Q : State → Prop) : Prop :=
  Succeeds (m.run.run s).1 → Q (m.run.run s).2

/-- A bound above the number of tokens left does nothing: the nesting never reaches it, whatever parser is
put there, and every loop ends by the condition it has in the source. -/
structure State.EndsByItself (s : State) (fuel : Nat) : Prop where
  types : ∀ bottom, (typeBy^[fuel] bottom).run s = type.run s
  exprs : ∀ bottom p, (exprBy^[fuel] bottom p).run.run s = (nested p).run.run s
  blocks : ∀ bottom, ∀ ends : List TokenKind, .eof ∈ ends →
    (blockBy^[fuel] bottom ends).run s = (block ends).run s
  line : s.toLineEnd.cur.kind = .nl ∨ s.toLineEnd.cur.kind = .eof
  exprList : ∀ done, StopsAt (exprListWithin nested fuel done) s fun t => (atListEnd.run t).1
  layout : ∀ done, ((layoutWithin fuel done).run s).2.cur.kind ∉ [.nl, .comment, .ws]
  elements : ∀ layout elems, StopsAt (elementsWithin nested fuel layout elems) s fun t =>
    t.cur.kind = .rBracket ∨ t.cur.kind = .eof
  pairs : ∀ layout pairs, StopsAt (pairsWithin nested fuel layout pairs) s fun t =>
    t.cur.kind = .rCurly ∨ t.cur.kind = .eof
  operators : ∀ p left, StopsAt (operatorsWithin nested p fuel left) s fun t => t.EndsOperators p
  target : ∀ token target, StopsAt (targetWithin token fuel target) s fun t => t.cur.kind ∉ [.lBracket, .dot]
  branches : ∀ done, let t := ((moreBranches block fuel done).run s).2
    ¬ (t.cur.kind = .else ∧ t.peek.kind = .if)
  stmts : ∀ ends : List TokenKind, .eof ∈ ends → ∀ done terminated,
    ((stmtsWithin block ends fuel done terminated).run s).2.cur.kind ∈ ends
  params : ∀ done, let t := ((paramsWithin fuel done).run s).2
    t.atLineEnd ∨ t.cur.kind = .dot3
  eventParams : ∀ done, ((eventParamsWithin fuel done).run s).2.atLineEnd
  programs : ∀ done terminated, ((programWithin fuel done terminated).run s).2.cur.kind = .eof

section
variable {α : Type} {m : Parse α} {D : α → Prop} {s : State}

theorem Agree.stands (h : ∀ n, Agree n Any D m m) (hs : s.InRange) : Stands m s :=
  (h s.remaining s hs (Nat.le_refl _) trivial).2.1

theorem Agree.strides (h : ∀ n, Agree n Any D m m) (hs : s.InRange) (hD : D (m.run s).1) : Strides m s :=
  ⟨stands h hs, (h s.remaining s hs (Nat.le_refl _) trivial).2.2 hD⟩

theorem Agree.strides_live (h : ∀ n, Agree n Live Always m m) (hs : s.InRange) (hlive : s.cur.kind ≠ .eof) :
    Strides m s :=
  have hm := h s.remaining s hs (Nat.le_refl _) hlive
  ⟨hm.2.1, hm.2.2 trivial⟩

end

theorem State.InRange.makesProgress {s : State} (hs : s.InRange) : s.MakesProgress where
  moves := by
    simp only [List.forall_mem_cons]
    exact ⟨State.leads_advanceOne hs, State.leads_skipBlank hs, State.leads_advance hs,
      State.leads_toLineEnd hs, State.leads_nextLine hs, State.leads_popSpacing hs, nofun⟩
  type := Agree.stands (fun _ => type_agree) hs
  expr p := ⟨Agree.stands (fun _ => nested_agree p) hs, Agree.strides (fun _ => nested_agree p) hs⟩
  topLevelExpr := ⟨Agree.stands (fun _ => topLevelExpr_agree) hs, Agree.strides (fun _ => topLevelExpr_agree) hs⟩
  block ends hends := Agree.stands (fun _ => block_agree ends hends) hs
  statement := Agree.strides_live (fun _ => statement_agree fun _ _ => block_agree) hs
  signature := Agree.stands (fun _ => signature_agree) hs
  function := Agree.strides_live (fun _ => function_agree fun _ => id) hs
  handler := Agree.strides_live (fun _ => handler_agree fun _ => id) hs

theorem run_get_bind {α : Type} (f : State → Parse α) (s : State) : (get >>= f).run s = (f s).run s := rfl

theorem run_modify_bind {α : Type} (g : State → State) (f : PUnit → Parse α) (s : State) :
    (modify g >>= f).run s = (f ⟨⟩).run (g s) := rfl

theorem run_bind {α β : Type} (m : Parse α) (f : α → Parse β) (s : State) :
    (m >>= f).run s = (f (m.run s).1).run (m.run s).2 := rfl

theorem run_get_tryBind {α : Type} (f : State → Attempt α) (s : State) :
    (get >>= f : Attempt α).run.run s = (f s).run.run s := rfl

theorem State.InRange.endsByItself {s : State} (hs : s.InRange) {fuel : Nat} (h : s.remaining < fuel) :
    s.EndsByItself fuel := by
  have hfuel := s.remaining_lt_fuel
  have hle := Nat.le_refl s.remaining
  exact {
    types := fun bottom => by
      rw [type, run_get_bind, typeWithin_eq_iterate]
      exact (iterate_typeBy_agree (p := Any) h hfuel s hs hle trivial).1
    exprs := fun bottom p => by
      rw [nested, run_get_tryBind, exprWithin_eq_iterate]
      exact (iterate_exprBy_agree h hfuel p s hs hle trivial).1
    blocks := fun bottom ends hends => by
      rw [block, run_get_bind, blockWithin_eq_iterate]
      exact (iterate_blockBy_agree h hfuel ends hends s hs hle trivial).1
    line := State.toLineEnd_ends hs
    exprList := fun done => exprListWithin_ends (p := Any) nested_agree h done s hs hle trivial
    layout := fun done => layoutWithin_ends (p := Any) h done s hs hle trivial
    elements := fun l e => elementsWithin_ends (p := Any) nested_agree h l e s hs hle trivial
    pairs := fun l q => pairsWithin_ends (p := Any) nested_agree h l q s hs hle trivial
    operators := fun q left => operatorsWithin_ends (p := Any) (fun _ _ => nested_agree) h left s hs hle trivial
    target := fun token e => targetWithin_ends (p := Any) token h e s hs hle trivial
    branches := fun done => moreBranches_ends (p := Any) (fun _ _ => block_agree) h done s hs hle trivial
    stmts := fun ends hends done b =>
      stmtsWithin_ends (p := Any) (fun _ _ => block_agree) hends h done b s hs hle trivial
    params := fun done => paramsWithin_ends (p := Any) h done s hs hle trivial
    eventParams := fun done => eventParamsWithin_ends (p := Any) h done s hs hle trivial
    programs := fun done b => programWithin_ends (p := Any) h done b s hs hle trivial }

/-! ### Whole programs -/

theorem scanFrom_eq_push (tokens : Array Token) (skip : Nat) (pos : Position) (cs : List Char) :
    ∃ (before : Array Token) (last : Position), Token.scanFrom tokens skip pos cs = before.push ⟨.eof, "", last⟩ := by
  induction cs generalizing tokens skip pos with
  | nil => exact ⟨tokens, pos, by cases skip <;> rfl⟩
  | cons c cs ih =>
    cases skip with
    | zero => exact ih _ _ _
    | succ skip => exact ih _ _ _

theorem back?_start_tokens (source : String) (prelude : Prelude) :
    ∃ last, (State.start source prelude).tokens.back? = some ⟨.eof, "", last⟩ := by
  obtain ⟨before, last, hscan⟩ := scanFrom_eq_push #[] 0 .start source.toList
  refine ⟨last, ?_⟩
  show ((Token.scan source).filter (·.kind != .illegal)).back? = _
  rw [Token.scan, hscan, Array.filter_push_of_pos rfl (by simp), Array.back?_push]

theorem start_inRange (source : String) (prelude : Prelude) : (State.start source prelude).InRange := by
  obtain ⟨last, hlast⟩ := back?_start_tokens source prelude
  refine ⟨Nat.zero_le _, ?_⟩
  show ((State.start source prelude).tokens.back?.getD _).kind = .eof
  rw [hlast]
  rfl

/-- The same tokens are read, from another place. -/
structure State.Shares (s t : State) : Prop where
  tokens : t.tokens = s.tokens
  eof : t.eof = s.eof

theorem signatures_inRange {s : State} (hs : s.InRange) {positions : List Nat}
    (h : ∀ i ∈ positions, i < s.tokens.size) :
    ((positions.forM signatureAt).run s).2.InRange ∧ s.Shares ((positions.forM signatureAt).run s).2 := by
  induction positions generalizing s with
  | nil => exact ⟨hs, rfl, rfl⟩
  | cons i positions ih =>
    obtain ⟨hi, hrest⟩ := List.forall_mem_cons.1 h
    have hat : State.InRange { s with pos := i } := ⟨Nat.le_of_lt hi, hs.eof⟩
    have hread : Stands signature.run { s with pos := i } := Agree.stands (fun _ => signature_agree) hat
    have hleads : State.Leads { s with pos := i } ((signatureAt i).run s).2 := by
      unfold signatureAt
      rw [run_modify_bind, run_bind]
      refine hread.trans ?_
      split
      · exact Agree.stands (fun _ => .stays (addSignature_stays _ _)) (hread.inRange hat)
      · exact (hread.inRange hat).refl
    obtain ⟨hin, htokens, heof⟩ := ih (hleads.inRange hat) (by rw [hleads.tokens]; exact hrest)
    have hrun : ((i :: positions).forM signatureAt).run s =
        (positions.forM signatureAt).run ((signatureAt i).run s).2 :=
      run_bind (signatureAt i) (fun _ => positions.forM signatureAt) s
    rw [hrun]
    exact ⟨hin, htokens.trans hleads.tokens, heof.trans hleads.eof⟩

/-- Reading any source with any prelude begins and ends within the tokens and reads up to the end of
input. At every place within the tokens all parts of the parser make progress and end by themselves. -/
theorem program_makes_progress (source : String) (prelude : Prelude) :
    let start := State.start source prelude
    let finish := (program.run start).2
    start.InRange ∧ (∀ i ∈ start.funcPositions, i < start.tokens.size) ∧
    finish.InRange ∧ finish.tokens = start.tokens ∧ finish.cur.kind = .eof ∧
    ∀ s : State, s.InRange → s.MakesProgress ∧ ∀ fuel, s.remaining < fuel → s.EndsByItself fuel := by
  intro start finish
  have hstart : start.InRange := start_inRange source prelude
  have hpositions : ∀ i ∈ start.funcPositions, i < start.tokens.size := fun i hi =>
    List.mem_range.1 (List.mem_filter.1 hi).1
  obtain ⟨hin, htokens, heof⟩ := signatures_inRange hstart hpositions
  let body := ((start.funcPositions.forM signatureAt).run start).2
  let second : State := { body with
    scopes := body.prelude.globals.foldl (fun ss v => ss.declare v true) (body.scopes.enterWith .program none)
    pos := 0 }
  have hsecond : second.InRange := by
    have heof : body.eof.kind = .eof := hin.eof
    clear_value body
    exact ⟨Nat.zero_le _, heof⟩
  have hrest (stmts : List Stmt) : Stays (do
      leaveScope
      let s ← get
      return (⟨stmts, s.declared.toList, s.handlers.toList⟩ : Program)) :=
    leaveScope_stays.bind fun _ => Stays.get.bind fun _ => .pure _
  have hfinish : finish = ((do
      let stmts ← programWithin (← get).fuel #[] false
      leaveScope
      let s ← get
      return (⟨stmts, s.declared.toList, s.handlers.toList⟩ : Program) : Parse Program).run second).2 := by
    show (program.run start).2 = _
    unfold program
    rw [run_get_bind, run_bind, enterScopeWith, run_modify_bind, run_modify_bind]
  have hleads : second.Leads finish := by
    rw [hfinish]
    refine Agree.stands (D := Never) (fun n => .fuel fun t j _ hlt => ?_) hsecond
    exact (programWithin_agree hlt hlt _ _).slow fun stmts => .stays (hrest stmts)
  have hend : finish.cur.kind = .eof := by
    rw [hfinish, run_get_bind]
    have hloop := programWithin_ends (p := Any) second.remaining_lt_fuel #[] false
    exact (Ends.rest (K := (· = .eof)) hloop hrest) second hsecond (Nat.le_refl _) trivial
  refine ⟨hstart, hpositions, hleads.inRange hsecond, hleads.tokens.trans htokens, hend, fun s hs => ?_⟩
  exact ⟨hs.makesProgress, fun fuel h => hs.endsByItself h⟩

end TinyScript.Parsing
