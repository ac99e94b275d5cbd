import TinyScript.Proofs.Layout.Expressions

/-!
# The layout of statements

Lines put below each other keep at most one blank line in a row, if what they hold is neat (`LinesSpaced`).
So a statement with a block is neat if its parts are, and a program if its statements are.
-/

namespace TinyScript
open Layout Word

/-- The comment at the end of a line, if there is one, can be seen. -/
def Noted (comment : Option String) : Prop :=
  ∀ text, comment = some text → Visible (Text.trim text)

theorem Noted.none : Noted none := nofun

theorem Noted.trailing_flat {comment : Option String} (h : Noted comment) : Flat (trailing comment) := by
  cases comment with
  | none => exact .nil
  | some text => exact .cons visible_space (.cons (h text rfl) .nil)

/-! ### Lines -/

namespace Layout

/-- What a line that is not blank holds is neat. A newline more is only at its end if a line follows that is
not blank. -/
def LineSpaced (line : Bool × List Word) (rest : List (Bool × List Word)) : Prop :=
  line.1 = true ∨ Solid line.2 ∨
    ∃ ws, line.2 = ws ++ [newline] ∧ Solid ws ∧ rest.head?.map Prod.fst = some false

def LinesSpaced : List (Bool × List Word) → Prop
  | [] => True
  | line :: rest => LineSpaced line rest ∧ LinesSpaced rest

theorem lines_words (afterBlank : Bool) (ws : List Word) (rest : List (Bool × List Word)) :
    lines afterBlank ((false, ws) :: rest) = ws ++ newline :: lines false rest := rfl

theorem lines_firstBlank (ws : List Word) (rest : List (Bool × List Word)) :
    lines false ((true, ws) :: rest) = newline :: lines true rest := rfl

/-- Lines start after at most two newlines in a row, and after at most one before a blank line. -/
theorem lines_spaced {entries : List (Bool × List Word)} (h : LinesSpaced entries) {n : Nat}
    (afterBlank : Bool) (hn : n ≤ 2)
    (hfirst : afterBlank = false → entries.head?.map Prod.fst = some true → n < 2) :
    ∃ m, Spaced n (lines afterBlank entries) m := by
  induction entries generalizing n afterBlank with
  | nil => exact ⟨n, .nil n⟩
  | cons line rest ih =>
    obtain ⟨empty, ws⟩ := line
    obtain ⟨hline, hrest⟩ := h
    cases empty with
    | true =>
      cases afterBlank with
      | true => exact ih hrest true hn nofun
      | false =>
        obtain ⟨m, hm⟩ := ih hrest (n := n + 1) true (hfirst rfl rfl) nofun
        rw [lines_firstBlank]
        exact ⟨m, (Spaced.newline (hfirst rfl rfl)).cons hm⟩
    | false =>
      rw [lines_words]
      rcases hline with hblank | hsolid | ⟨ws, rfl, hsolid, hnext⟩
      · cases hblank
      · obtain ⟨m, hm⟩ := ih hrest (n := 1) false (by omega) fun _ _ => Nat.one_lt_two
        exact ⟨m, (hsolid n).append ((Spaced.newline (by omega)).cons hm)⟩
      · obtain ⟨m, hm⟩ := ih hrest (n := 2) false (Nat.le_refl 2) fun _ hblank => by
          rw [hnext] at hblank
          cases hblank
        have hgap : Spaced n (ws ++ [newline]) 1 := (hsolid n).append (Spaced.newline (by omega))
        exact ⟨m, hgap.append ((Spaced.newline (by omega)).cons hm)⟩

end Layout

/-! ### Statements -/

/-- The comment on the line that ends a function or handler. -/
def Stmt.closing : Stmt → Option String
  | .func _ _ _ body | .on _ _ _ _ body => body.comment
  | _ => none

/-- The statement is a blank line, or neat on lines of every level. -/
structure Stmt.Neat (s : Stmt) : Prop where
  lines : isBlank s = true ∨ ∀ level, Solid (stmt level s)
  closing : Noted s.closing

/-- The statements of the block are neat, and its comment can be seen. -/
structure Block.Neat (b : Block) : Prop where
  stmts : ∀ s ∈ b.stmts, s.Neat
  comment : Noted b.comment

/-- The branch has at most one blank line in a row where it goes on after a keyword. -/
def Branch.Neat (b : Branch) : Prop :=
  ∀ level, ∃ m, Spaced 0 (branch level b) m

/-- The names of a signature can be seen. -/
structure Signature.Neat (sig : Signature) : Prop where
  name : Visible sig.name
  params : ∀ v ∈ sig.params, Visible v.name
  variadic : ∀ v, sig.variadic = some v → Visible v.name

section
variable {token : Token} {comment : Option String} {name : String} {e target value : Expr} {v : Var}
  {ss : List Stmt} {body : Block} {ws : List Word}

theorem Block.Neat.withComment (h : body.Neat) (hcomment : Noted comment) : (body.withComment comment).Neat :=
  ⟨h.stmts, hcomment⟩

theorem stmts_spaced (level : Nat) (h : ∀ s ∈ ss, s.Neat) : ∃ m, Spaced 1 (lines false (stmts level ss)) m := by
  have hlines : LinesSpaced (stmts level ss) := by
    induction ss with
    | nil => trivial
    | cons s ss ih =>
      obtain ⟨hs, hss⟩ := List.forall_mem_cons.1 h
      refine ⟨?_, ih hss⟩
      rcases hs.lines with hblank | hsolid
      · exact .inl hblank
      · exact .inr (.inl (solid_indent level (hsolid level)))
  exact lines_spaced hlines false (by omega) fun _ _ => Nat.one_lt_two

/-- A block below the line that opens it. -/
theorem Word.Solid.block (hopen : Solid ws) (h : body.Neat) (level : Nat) :
    Solid (ws ++ newline :: Layout.block level body) := by
  obtain ⟨token, comment, ss⟩ := body
  intro n
  obtain ⟨m, hm⟩ := stmts_spaced (level + 1) h.stmts
  obtain ⟨k, -, hk⟩ := spaced_indent level m
  have hend : Solid (sign .end :: trailing comment) := .cons (by decide) h.comment.trailing_flat
  exact (hopen n).append ((Spaced.newline (by omega)).cons ((hm.append hk).append (hend k)))

theorem Branch.Neat.mk (hcond : e.Neat) (hcomment : Noted comment) (h : body.Neat) :
    (Branch.mk token comment e body).Neat := by
  obtain ⟨_, _, ss⟩ := body
  intro level
  obtain ⟨m, hm⟩ := stmts_spaced (level + 1) h.stmts
  have hline := (hcond level).append hcomment.trailing_flat 0
  exact ⟨m, hline.append ((Spaced.newline (by omega)).cons hm)⟩

theorem moreBranches_spaced (level n : Nat) {more : List Branch} (h : ∀ b ∈ more, b.Neat) :
    ∃ m, Spaced n (moreBranches level more) m := by
  induction more generalizing n with
  | nil => exact ⟨n, .nil n⟩
  | cons b more ih =>
    obtain ⟨hb, hmore⟩ := List.forall_mem_cons.1 h
    obtain ⟨m, hm⟩ := hb level
    obtain ⟨k, hk⟩ := ih m hmore
    have hopen : Solid (indent level ++ [sign .else, space, sign .if, space]) :=
      solid_indent level (.cons (by decide) (.cons visible_space (.cons (by decide) (.cons visible_space .nil))))
    refine ⟨k, ?_⟩
    rw [moreBranches]
    have hall := ((hopen n).append hm).append hk
    simpa using hall

theorem lastBranch_spaced (level n : Nat) {last : Option Block} (h : ∀ b, last = some b → b.Neat) :
    ∃ m, Spaced n (lastBranch level last) m := by
  cases last with
  | none => exact ⟨n, .nil n⟩
  | some body =>
    have hbody := h body rfl
    obtain ⟨token, comment, ss⟩ := body
    obtain ⟨m, hm⟩ := stmts_spaced (level + 1) hbody.stmts
    have hopen : Solid (indent level ++ [sign .else]) := solid_indent level (.cons (by decide) .nil)
    have hline : Solid (indent level ++ sign .else :: trailing comment) := by
      have hall := hopen.append hbody.comment.trailing_flat
      rwa [List.append_assoc] at hall
    exact ⟨m, (hline n).append ((Spaced.newline (by omega)).cons hm)⟩

theorem params_flat {vs : List Var} (h : ∀ v ∈ vs, Visible v.name) : Flat (params vs) := by
  induction vs with
  | nil => exact .nil
  | cons v vs ih =>
    obtain ⟨hv, hvs⟩ := List.forall_mem_cons.1 h
    exact Flat.append (.cons visible_space (typedVar_solid hv).flat) (ih hvs)

theorem loopVar_flat {v? : Option Var} (h : ∀ v, v? = some v → Visible v.name) : Flat (loopVar v?) := by
  cases v? with
  | none => exact .nil
  | some v =>
    exact .cons (visible_ident (h v rfl)) (.cons visible_space (.cons (by decide) (.cons visible_space .nil)))

theorem funcHead_solid {sig : Signature} (h : sig.Neat) : Solid (funcHead sig) := by
  unfold funcHead
  extract_lets result rest
  have hresult : Flat result := by
    dsimp only [result]
    split
    · exact .nil
    · exact .cons (by decide) (type_solid _).flat
  have hrest : Flat rest := by
    dsimp only [rest]
    split
    · next v hv => exact (Flat.cons visible_space (typedVar_solid (h.variadic v hv)).flat).concat (by decide)
    · exact .nil
  have hname : Solid (sign .func :: space :: ident sig.name :: result) :=
    .cons (by decide) (.cons visible_space (.cons (visible_ident h.name) hresult))
  exact (hname.append (params_flat h.params)).append hrest

/-- The expressions of a range are neat. -/
def Range.Neat : Range → Prop
  | .step start stop stride => (∀ e, start = some e → e.Neat) ∧ stop.Neat ∧ ∀ e, stride = some e → e.Neat
  | .over e => e.Neat

theorem Range.Neat.flat {r : Range} (h : r.Neat) (level : Nat) : Flat (Layout.range level r) := by
  cases r with
  | step start stop stride =>
    obtain ⟨hstart, hstop, hstride⟩ := h
    refine arguments_flat level fun e he => ?_
    rcases List.mem_append.1 he with he | he
    · exact hstart e (Option.mem_toList.1 he)
    rcases List.mem_cons.1 he with rfl | he
    · exact hstop
    · exact hstride e (Option.mem_toList.1 he)
  | «over» e => exact arguments_flat level (List.forall_mem_singleton.2 h)

namespace Stmt.Neat

theorem empty (h : Noted comment) : (Stmt.empty token comment).Neat := by
  cases comment with
  | none => exact ⟨.inl rfl, .none⟩
  | some text => exact ⟨.inr fun _ => .cons (h text rfl) .nil, .none⟩

theorem typedDecl (hcomment : Noted comment) (hv : Visible v.name) :
    (Stmt.typedDecl token comment v value).Neat :=
  ⟨.inr fun _ => (typedVar_solid hv).append hcomment.trailing_flat, .none⟩

theorem inferredDecl (hcomment : Noted comment) (hv : Visible v.name) (h : value.Neat) :
    (Stmt.inferredDecl token comment v value).Neat := by
  refine ⟨.inr fun level => ?_, .none⟩
  have hvalue := (h level).flat
  exact Solid.append (.cons (visible_ident hv) (.cons visible_space (.cons (by decide)
    (.cons visible_space hvalue)))) hcomment.trailing_flat

theorem assign (hcomment : Noted comment) (htarget : target.Neat) (h : value.Neat) :
    (Stmt.assign token comment target value).Neat := by
  refine ⟨.inr fun level => ?_, .none⟩
  have hvalue := (h level).flat
  exact Solid.append (Solid.append (htarget level) (.cons visible_space (.cons (by decide)
    (.cons visible_space hvalue)))) hcomment.trailing_flat

theorem call {args : List Expr} {result : Ty} (hcomment : Noted comment) (hname : Visible name)
    (h : ∀ e ∈ args, e.Neat) : (Stmt.call token comment name args result).Neat :=
  ⟨.inr fun level => Solid.append (.cons (visible_ident hname) (arguments_flat level h)) hcomment.trailing_flat,
    .none⟩

theorem ret {value : Option Expr} (hcomment : Noted comment) (h : ∀ e, value = some e → e.Neat) :
    (Stmt.ret token comment value).Neat := by
  refine ⟨.inr fun level => ?_, .none⟩
  cases value with
  | none => exact .cons (by decide) hcomment.trailing_flat
  | some e =>
    exact Solid.append (.cons (by decide) (.cons visible_space (h e rfl level).flat)) hcomment.trailing_flat

theorem brk (hcomment : Noted comment) : (Stmt.brk token comment).Neat :=
  ⟨.inr fun _ => .cons (by decide) hcomment.trailing_flat, .none⟩

theorem cond {first : Branch} {more : List Branch} {last : Option Block} (hcomment : Noted comment)
    (hfirst : first.Neat) (hmore : ∀ b ∈ more, b.Neat) (hlast : ∀ b, last = some b → b.Neat) :
    (Stmt.cond token comment first more last).Neat := by
  refine ⟨.inr fun level n => ?_, .none⟩
  obtain ⟨i, hi⟩ := hfirst level
  obtain ⟨j, hj⟩ := moreBranches_spaced level i hmore
  obtain ⟨k, hk⟩ := lastBranch_spaced level j hlast
  obtain ⟨l, -, hl⟩ := spaced_indent level k
  have hopen : Solid [sign .if, space] := .cons (by decide) (.cons visible_space .nil)
  have hend : Solid (sign .end :: trailing comment) := .cons (by decide) hcomment.trailing_flat
  exact (((((hopen n).append hi).append hj).append hk).append hl).append (hend l)

theorem loop {b : Branch} (hcond : b.condition.Neat) (hcomment : Noted b.comment) (hbody : b.body.Neat) :
    (Stmt.loop token b).Neat := by
  obtain ⟨_, comment, e, body⟩ := b
  refine ⟨.inr fun level => ?_, .none⟩
  have hopen : Solid (sign .while :: space :: expr level e ++ trailing comment) :=
    Solid.append (.cons (by decide) (.cons visible_space (hcond level).flat)) hcomment.trailing_flat
  exact hopen.block hbody level

theorem each {v? : Option Var} {r : Range} (hcomment : Noted comment) (hv : ∀ v, v? = some v → Visible v.name)
    (hr : r.Neat) (hbody : body.Neat) : (Stmt.each token comment v? r body).Neat := by
  refine ⟨.inr fun level => ?_, .none⟩
  have hvar : Solid (sign .for :: space :: loopVar v?) :=
    .cons (by decide) (.cons visible_space (loopVar_flat hv))
  have hopen : Solid (sign .for :: space :: loopVar v? ++ sign .range :: range level r ++ trailing comment) :=
    (hvar.append (.cons (by decide) (hr.flat level))).append hcomment.trailing_flat
  exact hopen.block hbody level

theorem func {sig : Signature} (hcomment : Noted comment) (hsig : sig.Neat) (hbody : body.Neat) :
    (Stmt.func token comment sig body).Neat :=
  ⟨.inr fun level => ((funcHead_solid hsig).append hcomment.trailing_flat).block hbody level, hbody.comment⟩

theorem on {vs : List Var} (hcomment : Noted comment) (hname : Visible name)
    (hvs : ∀ v ∈ vs, Visible v.name) (hbody : body.Neat) : (Stmt.on token comment name vs body).Neat := by
  refine ⟨.inr fun level => ?_, hbody.comment⟩
  have hhead : Solid (sign .on :: space :: ident name :: params vs) :=
    .cons (by decide) (.cons visible_space (.cons (visible_ident hname) (params_flat hvs)))
  exact (hhead.append hcomment.trailing_flat).block hbody level

end Stmt.Neat

end

end TinyScript
