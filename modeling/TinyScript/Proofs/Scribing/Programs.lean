import TinyScript.Proofs.Scribing.Handlers
import TinyScript.Proofs.Parsing.Termination

/-!
# Copies of programs

A program that is read without problems is copied as its rows.
-/

namespace TinyScript.Parsing
open Layout Word

variable {d : Draft} {σ : List Bool} {n m i j e : Nat} {p q : Page} {c c' : Scribe} {words w : List Word}
  {rows : List Row} {s : State} {declared : List String} {sig : Signature}

/-! ### Statements of a program -/

/-- The draft with other functions whose bodies have been read. -/
def Draft.withBodies (d : Draft) (bodies : List String) : Draft :=
  { d with bodies }

theorem Draft.Complete.withBodies (h : d.Complete) (bodies : List String) : (d.withBodies bodies).Complete where
  knows := h.knows
  headed i hk := by
    obtain ⟨sig, hsig, hheaded⟩ := h.headed i hk
    exact ⟨sig, hsig, hheaded.kind, hheaded.name, hheaded.copied⟩
  unique := h.unique

/-- Whole statements of a program are copied. The functions whose bodies have been read start in what is. -/
def TopLines (d : Draft) (rows : List Row) (s : State) : Prop :=
  ∃ n bodies, (∀ name ∈ bodies, ∃ j < n, d.Heads j name) ∧ Lines (d.withBodies bodies) [false] n 0 false rows s

/-- At the start of a line the draft is that of what comes before it. -/
theorem Gets.topLine {k : TokenKind} (heof : k ≠ .eof) {m : Attempt Stmt} {Q : Stmt → State → Prop}
    (h : ∀ i bodies declared, (∀ name ∈ bodies, ∃ j < i, d.Heads j name) →
      Gets (fun s => (s.pos = i ∧ LineStart (d.withBodies bodies) [false] i 0 false rows declared s) ∧
        s.cur.kind = k) m Q) :
    Gets (fun s => TopLines d rows s ∧ s.cur.kind = k) m Q := by
  refine (Parses.chosen (C := fun x : Nat × List String × List String => ∀ name ∈ x.2.1, ∃ j < x.1, d.Heads j name)
    (show ∀ name ∈ ((0, [], []) : Nat × List String × List String).2.1, _ from nofun) fun x hx =>
    h x.1 x.2.1 x.2.2 hx).conseq
      ?_ fun _ _ => id
  rintro s ⟨⟨n, bodies, hbodies, hlines⟩, hk⟩
  obtain ⟨declared, hplain, hon⟩ := hlines.starts (by rwa [hk])
  refine ⟨(s.pos, bodies, declared), fun name hname => ?_, ⟨rfl, hplain, { hon with lower := Nat.le_refl _ }⟩, hk⟩
  obtain ⟨j, hj, hheads⟩ := hbodies name hname
  exact ⟨j, Nat.lt_of_lt_of_le hj hon.lower, hheads⟩

theorem Adds.topLines {bodies : List String} {stmt : Stmt} (hbodies : ∀ name ∈ bodies, ∃ j < n, d.Heads j name)
    (h : Adds (d.withBodies bodies) [false] n 0 false rows stmt s) : TopLines d (rows ++ stmtRows 0 stmt) s :=
  ⟨n, bodies, hbodies, h⟩

theorem functionTop_writes (hcomplete : d.Complete) :
    Gets (fun s => TopLines d rows s ∧ s.cur.kind = .func) function fun stmt => TopLines d
    (rows ++ stmtRows 0 stmt) := by
  refine .topLine (k := .func) nofun fun i bodies declared hbodies => ?_
  have hwrites : Gets (fun s => (s.pos = i ∧ LineStart (d.withBodies bodies) [false] i 0 false rows declared s) ∧
      s.cur.kind = .func) function (Adds (d.withBodies (bodies ++ [d.nameAt i])) [false] (i + 1) 0 false rows) :=
    function_writes (hcomplete.withBodies bodies) rfl hbodies
  by_cases hk : (d.tokenAt i).kind = .func
  · refine hwrites.conseq (fun _ => id) fun stmt s hs => hs.topLines fun name hname => ?_
    rcases List.mem_append.1 hname with hname | hname
    · obtain ⟨j, hj, hheads⟩ := hbodies name hname
      exact ⟨j, Nat.lt_succ_of_lt hj, hheads⟩
    · exact ⟨i, Nat.lt_succ_self i, hk, (List.mem_singleton.1 hname).symm⟩
  · refine (Parses.never hwrites).conseq ?_ fun _ _ => id
    rintro s ⟨⟨rfl, hs⟩, hfunc⟩
    exact hk (hs.2.cur ▸ hfunc)

theorem handlerTop_writes (hcomplete : d.Complete) :
    Gets (fun s => TopLines d rows s ∧ s.cur.kind = .on) handler fun stmt => TopLines d (rows ++ stmtRows 0 stmt) := by
  refine .topLine (k := .on) nofun fun i bodies declared hbodies => ?_
  refine (handler_writes (hcomplete.withBodies bodies) rfl).conseq (fun _ => id) fun stmt s hs =>
    hs.topLines fun name hname => ?_
  obtain ⟨j, hj, hheads⟩ := hbodies name hname
  exact ⟨j, Nat.lt_succ_of_lt hj, hheads⟩

theorem statementTop_writes (hcomplete : d.Complete) :
    Parses (TopLines d rows) (statement block).run fun r => TopLines d (rows ++ r.toList.flatMap (stmtRows 0)) := by
  have hwrites (n : Nat) (bodies : List String) (hbodies : ∀ name ∈ bodies, ∃ j < n, d.Heads j name) :
      Parses (Lines (d.withBodies bodies) [false] n 0 false rows) (statement block).run fun r =>
        TopLines d (rows ++ r.toList.flatMap (stmtRows 0)) := by
    have hknows := (hcomplete.withBodies bodies).knows
    have hbody : false → 0 ≠ 0 := nofun
    refine (statement_writes hknows rfl (block_writes hknows rfl) 0 false rows hbody).conseq
      (fun _ => id) fun r s hs => ?_
    cases r with
    | none =>
      rw [Option.toList_none, List.flatMap_nil, List.append_nil]
      exact ⟨n, bodies, hbodies, hs⟩
    | some stmt =>
      rw [Option.toList_some, List.flatMap_singleton]
      exact ⟨n, bodies, hbodies, hs⟩
  refine (Parses.chosen (C := fun x : Nat × List String => ∀ name ∈ x.2, ∃ j < x.1, d.Heads j name)
    (show ∀ name ∈ ((0, []) : Nat × List String).2, _ from nofun) fun x hx => hwrites x.1 x.2 hx).conseq ?_
    fun _ _ => id
  exact fun s ⟨n, bodies, hbodies, hlines⟩ => ⟨(n, bodies), hbodies, hlines⟩

theorem programWithin_writes (hcomplete : d.Complete) (fuel : Nat) (done : Array Stmt) (terminated : Bool) :
    Parses (TopLines d (stmtsRows 0 done.toList)) (programWithin fuel done terminated) fun ss =>
      TopLines d (stmtsRows 0 ss) := by
  induction fuel generalizing done terminated with
  | zero => exact .pure fun _ => id
  | succ fuel ih =>
    have hadds {m : Attempt Stmt} {P : State → Prop}
        (h : Gets P m fun stmt => TopLines d (stmtsRows 0 done.toList ++ stmtRows 0 stmt)) :
        Parses P (m.run >>= fun stmt => programWithin fuel (done ++ stmt.toArray) terminated) fun ss =>
          TopLines d (stmtsRows 0 ss) := by
      refine Parses.bind h fun r => (ih (done ++ r.toArray) terminated).conseq ?_ fun _ _ => id
      rintro s ⟨stmt, rfl, hs⟩
      simpa [stmtsRows_append] using hs
    refine .lookThen fun token => ?_
    split
    · exact .pure fun s hs => hs.1
    · next hk => exact hadds ((functionTop_writes hcomplete).conseq (fun s hs => ⟨hs.1, hs.2 ▸ hk⟩) fun _ _ => id)
    · next hk => exact hadds ((handlerTop_writes hcomplete).conseq (fun s hs => ⟨hs.1, hs.2 ▸ hk⟩) fun _ _ => id)
    · refine Parses.bind ((statementTop_writes hcomplete).conseq (fun _ hs => hs.1) fun _ _ => id) fun r => ?_
      cases r with
      | none => exact (ih done terminated).conseq (fun s hs => by simpa using hs) fun _ _ => id
      | some stmt =>
        dsimp only
        split
        · exact (Parses.reportedAt (Q := fun _ _ => False)).bind fun _ => (ih done terminated).never
        · refine (ih (done.push stmt) _).conseq (fun s hs => ?_) fun _ _ => id
          rw [Array.toList_push, stmtsRows_append]
          simpa using hs

/-- All statements up to the end of input are copied. -/
theorem programWithin_whole (hcomplete : d.Complete) (t : State) :
    Parses (fun s => TopLines d [] s ∧ s = t) (programWithin t.fuel #[] false) fun ss s =>
      TopLines d (stmtsRows 0 ss) s ∧ s.cur.kind = .eof := by
  intro s hs hclean
  obtain ⟨hc, hlines⟩ := programWithin_writes hcomplete t.fuel #[] false s (fun hc => (hs hc).1) hclean
  obtain ⟨⟨n, bodies, -, declared, -, hwhole⟩, rfl⟩ := hs hc
  exact ⟨hc, hlines, programWithin_ends (p := Any) s.remaining_lt_fuel #[] false s hwhole.inRange
    (Nat.le_refl _) trivial⟩

/-! ### Whole programs -/

/-- The draft of a whole program, whose functions are known. -/
def Draft.whole (d : Draft) (known : List Signature) : Draft :=
  { d with
    known
    bodies := []
    fn := fun name => (known.find? (·.name == name)).isSome
    start := 0
    first := blankPage [] 0 false (d.prelude.globals.map (·.name)) }

theorem Signed.complete {known : List Signature} {positions : List Nat} (h : Signed d known positions)
    (hpositions : ∀ i, (d.tokenAt i).kind = .func → i ∈ positions) : (d.whole known).Complete where
  knows _ := rfl
  headed i hk := by
    obtain ⟨sig, hsig, hheaded⟩ := h.headed i (hpositions i hk)
    exact ⟨sig, hsig, hheaded.kind, hheaded.name, hheaded.copied⟩
  unique i j name hi hj := h.unique i (hpositions i hi.1) j (hpositions j hj.1) (hi.2.trans hj.2.symm)

theorem names_globals (ss : Scopes) (vs : List Var) :
    (vs.foldl (fun ss v => ss.declare v true) ss).names ⊆ vs.map (·.name) ++ ss.names := by
  induction vs generalizing ss with
  | nil => exact List.Subset.refl _
  | cons v vs ih =>
    intro name hname
    rcases List.mem_append.1 (ih (ss.declare v true) hname) with h | h
    · exact List.mem_append.2 (.inl (List.mem_cons_of_mem _ h))
    · rcases List.mem_cons.1 (Scopes.names_declare ss v true h) with rfl | h
      · exact List.mem_append.2 (.inl List.mem_cons_self)
      · exact List.mem_append.2 (.inr h)

/-- The indices of the tokens that start a function. -/
def Draft.funcPositions (d : Draft) : List Nat :=
  (List.range d.tokens.size).filter fun i => (d.tokenAt i).kind == .func

theorem mem_funcPositions : i ∈ d.funcPositions ↔ i < d.tokens.size ∧ (d.tokenAt i).kind = .func := by
  simp [Draft.funcPositions]

theorem mem_funcPositions_of_kind (h : (d.tokenAt i).kind = .func) : i ∈ d.funcPositions := by
  refine mem_funcPositions.2 ⟨Nat.lt_of_not_le fun hle => ?_, h⟩
  have htoken : d.tokenAt i = d.eof := by simp [Draft.tokenAt, Array.getElem?_eq_none hle]
  rw [htoken, d.eof_kind] at h
  cases h

/-- A program is copied up to its end as its rows where its functions are known. -/
def ProgramCopied (d : Draft) (p : Program) (s : State) : Prop :=
  ∃ known, (d.whole known).Complete ∧
    (∀ name, d.prelude.isGlobal name → (known.find? (·.name == name)).isSome = (d.prelude.func? name).isSome) ∧
      TopLines (d.whole known) (stmtsRows 0 p.stmts) s ∧ s.cur.kind = .eof

/-- Before the first statement of a program. -/
theorem topLines_nil {o : Outline} (ho : o.Fresh d) (hs : Fresh d o s) :
    TopLines (d.whole o.funcs) [] { s with
      scopes := s.prelude.globals.foldl (fun ss v => ss.declare v true) (s.scopes.enterWith .program none),
      pos := 0 } := by
  have hstart : Fresh d o { s with pos := 0 } := ⟨hs.tokens, hs.eof, hs.spacing, hs.outline⟩
  have hon : On ((d.whole o.funcs).withBodies []) [false] 0 (d.whole o.funcs).first { s with pos := 0 } :=
    hstart.on ho _ [] _ rfl (Nat.zero_le _)
  have hscopes : s.scopes = [] := by
    have hread : s.scopes.asRead = [] := (congrArg Outline.scopes hs.outline).trans ho.scopes
    exact List.map_eq_nil_iff.1 hread
  have hprelude : s.prelude = d.prelude := hon.prelude
  refine ⟨0, [], fun name hname => absurd hname List.not_mem_nil, d.prelude.globals.map Var.name, fun _ h _ => h,
    { hon.whole with scopes := ?_ }⟩
  rw [hscopes, hprelude]
  show Scopes.names _ ⊆ d.prelude.globals.map Var.name
  intro name hname
  simpa [Scopes.names, Scopes.enterWith] using names_globals _ _ hname

theorem program_writes : Parses (SignedAt d []) program (ProgramCopied d) := by
  have hbody (d : Draft) (o : Outline) (ho : o.Fresh d) (hcomplete : (d.whole o.funcs).Complete) :
    Parses (Fresh d o) (do
      enterScopeWith .program none
      modify fun s =>
        { s with scopes := s.prelude.globals.foldl (fun ss v => ss.declare v true) s.scopes, pos := 0 }
      let stmts ← programWithin (← get).fuel #[] false
      leaveScope
      let s ← get
      return (⟨stmts, s.declared.toList, s.handlers.toList⟩ : Program)) fun p s =>
        TopLines (d.whole o.funcs) (stmtsRows 0 p.stmts) s ∧ s.cur.kind = .eof := by
    refine Parses.bind (Parses.step (Q := fun _ t => ∃ s, Fresh d o s ∧
      t = { s with scopes := s.scopes.enterWith .program none }) (fun _ => rfl) fun s hs => ⟨s, hs, rfl⟩) fun _ => ?_
    refine Parses.bind (Parses.step (Q := fun _ => TopLines (d.whole o.funcs) []) (fun _ => rfl) ?_) fun _ => ?_
    · rintro t ⟨s, hs, rfl⟩
      exact topLines_nil ho hs
    refine Parses.bind (Parses.state (Q := fun t s => TopLines (d.whole o.funcs) [] s ∧ s = t) fun s hs => ⟨hs, rfl⟩)
      fun t => ?_
    refine Parses.bind (programWithin_whole hcomplete t) fun stmts => ?_
    refine Parses.bind (Parses.closeScope (Q := fun _ s => TopLines (d.whole o.funcs) (stmtsRows 0 stmts) s ∧
      s.cur.kind = .eof) ?_)
      fun _ => ?_
    · rintro s ⟨⟨n, bodies, hbodies, hlines⟩, heof⟩
      exact ⟨⟨n, bodies, hbodies, hlines.withScopes (Scopes.names_tail _)⟩, heof⟩
    · exact Parses.bind (Parses.state (Q := fun _ s => TopLines (d.whole o.funcs) (stmtsRows 0 stmts) s ∧
        s.cur.kind = .eof)
        fun _ => id) fun s => .pure fun _ => id
  have hend : Parses (SignedAt d (d.funcPositions.reverse ++ [])) (do
      enterScopeWith .program none
      modify fun s =>
        { s with scopes := s.prelude.globals.foldl (fun ss v => ss.declare v true) s.scopes, pos := 0 }
      let stmts ← programWithin (← get).fuel #[] false
      leaveScope
      let s ← get
      return (⟨stmts, s.declared.toList, s.handlers.toList⟩ : Program)) (ProgramCopied d) := by
    have hempty : (d.empty.whole []).Complete := by
      have heof (i : Nat) : (d.empty.tokenAt i).kind ≠ .func := by
        have htoken : d.empty.tokenAt i = d.eof := by simp [Draft.tokenAt, Draft.empty]
        rw [htoken, d.eof_kind]
        simp
      exact ⟨fun _ => rfl, fun i hi => absurd hi (heof i), fun i _ _ hi => absurd hi.1 (heof i)⟩
    refine Parses.ofRun (fun s h => (hbody d.empty ⟨d.prelude, [], #[], #[], []⟩ ⟨rfl, rfl, rfl⟩ hempty).began h) ?_
    rintro s ⟨o, ho, hsigned, hs⟩ hclean
    have hcomplete := hsigned.complete fun i hi => by simpa using mem_funcPositions_of_kind hi
    exact ⟨o.funcs, hcomplete, hsigned.globals, (hbody d o ho hcomplete s (fun _ => hs) hclean).2⟩
  refine Parses.bind (Parses.state (Q := fun t s => t.funcPositions = d.funcPositions ∧ SignedAt d [] s)
    fun s hs => ⟨?_, hs⟩)
    fun t => ?_
  · obtain ⟨o, -, -, hs⟩ := hs
    have htoken (i : Nat) : s.tokenAt i = d.tokenAt i := by rw [State.tokenAt, Draft.tokenAt, hs.tokens, hs.eof]
    simp only [State.funcPositions, Draft.funcPositions, htoken, hs.tokens]
  by_cases hpositions : t.funcPositions = d.funcPositions
  · rw [hpositions]
    exact Parses.bind ((signatures_signed d.funcPositions [] fun i => mem_funcPositions.1).conseq (fun s hs => hs.2)
      fun _ _ => id) fun _ => hend
  · exact Parses.bind ((signatures_parses t.funcPositions).never.conseq (fun s hs => hpositions hs.1) fun _ _ => id)
      fun _ => hend.never

end TinyScript.Parsing
