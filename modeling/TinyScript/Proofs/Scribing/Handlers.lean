import TinyScript.Proofs.Scribing.Functions

/-!
# Copies of event handlers
-/

namespace TinyScript.Parsing
open Layout Word

variable {d : Draft} {σ : List Bool} {n m i j e : Nat} {p q : Page} {c c' : Scribe} {words w : List Word}
  {rows : List Row} {s : State} {declared : List String} {sig : Signature}

theorem declareEventParams_writes (rows : List Row) (hknows : d.Knows) (vs expected : List Var)
    (hvs : ∀ v ∈ vs, v.name ∈ declared) :
    Parses (fun s => Plain d c.declared ∧ AtBody d σ n rows declared s) (declareEventParams vs expected) fun _ s =>
      Plain d (c.declareAll vs).declared ∧ AtBody d σ n rows declared s := by
  induction vs generalizing c expected with
  | nil => exact .pure fun _ => id
  | cons v vs ih =>
    obtain ⟨hv, hvs⟩ := List.forall_mem_cons.1 hvs
    have hfits {P : State → Prop} : Parses P (expected.head?.forM fun e => do
        unless v.ty.fits e.ty do
          report (.parameterType v.name e.ty v.ty)) fun _ => P := by
      cases expected.head? with
      | none => exact .pure fun _ => id
      | some e =>
        show Parses P (unless v.ty.fits e.ty do report (.parameterType v.name e.ty v.ty)) _
        exact .ite (fun _ => .pure fun _ => id) fun _ => .reportedHere
    refine Parses.bind (Parses.checkDecl (Q := fun _ s => Plain d (c.declare v.name).declared ∧
      AtBody d σ n rows declared s)
      fun s hs hfn => ⟨hs.1.cons ?_, hs.2⟩) fun _ => hfits.bind fun _ =>
      Parses.bind (Parses.setScopes fun s hs => ⟨hs.1, hs.2.declare hv⟩) fun _ =>
        ih (c := c.declare v.name) expected.tail hvs
    rwa [hs.2.1.isFunc hknows] at hfn

theorem checkEventParams_writes (rows : List Row) (declared : List String) (hknows : d.Knows) {name : String}
    {vs : List Var} (hvs : ∀ v ∈ vs, v.name ∈ declared) :
    Parses (fun s => (d.prelude.event? name).isNone = false ∧ Plain d c.declared ∧ AtBody d σ n rows declared s)
      (checkEventParams name vs) fun _ s => Plain d (c.declareAll vs).declared ∧ AtBody d σ n rows declared s := by
  unfold checkEventParams
  split
  · next hempty =>
    obtain rfl := List.isEmpty_iff.1 hempty
    exact .pure fun _ hs => hs.2
  refine Parses.bind (Parses.state (Q := fun t s => ((d.prelude.event? name).isNone = false ∧ Plain d c.declared ∧
    AtBody d σ n rows declared s) ∧ s = t) fun s hs => ⟨hs, rfl⟩) fun t => ?_
  split
  · next hnone =>
    refine .pure ?_
    rintro s ⟨⟨hevent, hs⟩, rfl⟩
    rw [← hs.2.1.prelude, hnone] at hevent
    cases hevent
  · next event _ =>
    have hdeclare := declareEventParams_writes (d := d) (c := c) (σ := σ) (n := n) rows hknows vs event.params hvs
    dsimp only
    split
    · exact (Parses.reportedHere (Q := fun _ _ => False)).bind fun _ => hdeclare.never
    · exact hdeclare.conseq (fun s hs => hs.1.2) fun _ _ => id

theorem Lines.withHandlers {level : Nat} {inBody : Bool} {handlers : Array Handler}
    (h : Lines d σ n level inBody rows s) :
    Lines d σ n level inBody rows { s with handlers } := by
  obtain ⟨declared, hplain, hwhole⟩ := h
  exact ⟨declared, hplain, { hwhole with }⟩

/-- Reads the rest of a handler after its name. -/
theorem handlerRest_writes (hcomplete : d.Complete) (hsp : σ.headD false = false) (token : Token) (name : String)
    (problem : Option Problem) :
    Gets (fun s => (d.prelude.event? name).isNone = false ∧ Plain d declared ∧
      Listed d σ (i + 1) i rows [sign .on, space, ident name] (.heading declared) [] s) (do
        let params ← eventParamsWithin (← get).fuel #[]
        let comment ← OptionT.lift comment?
        nextLine
        enterScopeWith .handler (some .none)
        checkEventParams name params
        let body ← block [.end, .eof]
        leaveScope
        let endComment ← OptionT.lift blockEnd
        let body := body.withComment endComment
        if problem.isNone then
          modify fun s => { s with handlers := s.handlers.push ⟨name, params, body⟩ }
        return .on token comment name params body) (Adds d σ (i + 1) 0 false rows) := by
  refine .state fun t => ?_
  refine .liftBind (((eventParamsWithin_writes (c := .heading declared) (d := d) (i := i) (n := i + 1)
    rows [sign .on, space, ident name] hsp (Nat.le_succ i) t.fuel #[]).frame
      (φ := t.fuel = d.tokens.size + 1 ∧ (d.prelude.event? name).isNone = false ∧ Plain d declared)).conseq ?_
      fun _ _ => id)
    fun vs => ?_
  · rintro s ⟨⟨hevent, hplain, hs⟩, rfl⟩
    obtain ⟨-, place, -, hon⟩ := id hs
    exact ⟨⟨hon.fuel, hevent, hplain⟩, hs⟩
  obtain ⟨D, hD⟩ : ∃ D, D = ((Scribe.heading declared).declareAll vs).declared := ⟨_, rfl⟩
  refine .lookThen fun comment => ?_
  obtain ⟨rows', hrows⟩ : ∃ rows', rows' = rows ++
    [row 0 (sign .on :: space :: ident name :: params vs ++ trailing comment) .opener] := ⟨_, rfl⟩
  refine .moveTo (Q := fun s => (d.prelude.event? name).isNone = false ∧ Plain d declared ∧
    AtBody d σ (i + 1) rows' D s)
    State.moves_nextLine ?_ ?_
  · rintro s ⟨⟨⟨hfuel, hevent, hplain⟩, ⟨-, place, hplace, hon⟩, hended⟩, rfl⟩
    have hwhole := On.finish (p := (⟨rows, [], ((Scribe.heading declared).declareAll vs).goTo place⟩ : Page))
      ([sign .on, space, ident name] ++ params vs) hon (.params _ hplace) rfl (hended (by omega))
    have hpage : (⟨rows ++ [⟨[] ++ ([sign .on, space, ident name] ++ params vs) ++ trailing s.comment? ++ [newline],
        ((Scribe.heading declared).declareAll vs).kind⟩], [], ((Scribe.heading declared).declareAll vs).nextLine⟩ :
        Page) = blankPage rows' 1 true D := by
      rw [Scribe.declareAll_kind, Scribe.declareAll_nextLine, hrows, hD]
      simp [row, blankPage, indent]
      exact ⟨rfl, rfl⟩
    have hwhole := hpage ▸ hwhole
    exact ⟨hevent, hplain, hwhole.toWithin, .inr hwhole⟩
  refine .liftBind (Parses.setScopes (Q := fun _ s => (d.prelude.event? name).isNone = false ∧ Plain d declared ∧
    AtBody d σ (i + 1) rows' D s) fun s hs => ⟨hs.1, hs.2.1, hs.2.2.withScopes hs.2.2.1.scopes⟩) fun _ => ?_
  refine .liftBind (Q := fun _ s => Plain d D ∧ AtBody d σ (i + 1) rows' D s)
    ((checkEventParams_writes (c := .heading declared)
    (n := i + 1) rows' D hcomplete.knows ?_).conseq (fun _ => id) fun _ s hs => ⟨hD ▸ hs.1, hs.2⟩) fun _ => ?_
  · intro v hv
    rw [hD]
    exact mem_declareAll (.inr ⟨v, hv, rfl⟩)
  refine .liftBind (body_writes hcomplete.knows hsp) fun body => .liftBind (Parses.closeScope
    (Q := fun _ => Lines d σ (i + 1) 1 true (rows' ++ stmtsRows 1 body.stmts)) fun s hs =>
    hs.withScopes (Scopes.names_tail _))
    fun _ => .liftBind (blockEnd_writes 0 true hsp) fun endComment => ?_
  have hadds {s : State} (hs : Lines d σ (i + 1) 0 (true && 0 != 0)
      (rows' ++ stmtsRows 1 body.stmts ++ [row 0 (sign .end :: trailing endComment) (endKind 0 true)]) s) :
      Adds d σ (i + 1) 0 false rows (.on token comment name vs (body.withComment endComment)) s := by
    have hend : endKind 0 true = closeKind 0 := rfl
    rw [hend] at hs
    have hs := Lines.block rows' body hs
    simpa [Adds, stmtRows, openKind, hrows] using hs
  dsimp only
  split
  · exact .liftBind (Parses.step (Q := fun _ => Adds d σ (i + 1) 0 false rows (.on token comment name vs
      (body.withComment endComment))) (fun _ => rfl) fun s hs => (hadds hs).withHandlers) fun _ => .pure fun _ => id
  · exact .pure fun s hs => hadds hs

theorem handler_writes (hcomplete : d.Complete) (hsp : σ.headD false = false) :
    Gets (fun s => (s.pos = i ∧ LineStart d σ i 0 false rows declared s) ∧ s.cur.kind = .on) handler
      (Adds d σ (i + 1) 0 false rows) := by
  refine .lookThen fun token => .moveTo (Q := fun s => Plain d declared ∧ d.Joined i s.pos ∧
    On d σ (i + 1) (⟨rows, [sign .on], (Scribe.heading declared).goTo .handlerName⟩ : Page) s) State.moves_advance ?_ ?_
  · rintro s ⟨⟨⟨rfl, hs⟩, hk⟩, -⟩
    refine ⟨hs.1, ?_, hs.step hk ⟨nofun, nofun⟩ rfl nofun⟩
    exact hs.2.joined_advance hsp (by rw [hk]; rfl) fun k hle hlt => absurd (Nat.lt_of_le_of_lt hle hlt)
      (Nat.lt_irrefl _)
  refine Gets.bind (Q := fun _ s => s.cur.kind = .ident ∧ Plain d declared ∧ d.Joined i s.pos ∧
    On d σ (i + 1) (⟨rows, [sign .on], (Scribe.heading declared).goTo .handlerName⟩ : Page) s)
    (.orNextLine (.require _ fun s hs hk => ⟨hk, hs⟩)) fun _ => .lookThen fun nameToken => .state fun t => ?_
  generalize hproblem : t.handlerProblem? nameToken.literal = problem
  have hrest : Gets (fun s => problem = none ∧ (((s.cur.kind = .ident ∧ Plain d declared ∧ d.Joined i s.pos ∧
      On d σ (i + 1) (⟨rows, [sign .on], (Scribe.heading declared).goTo .handlerName⟩ : Page) s) ∧ s.cur = nameToken) ∧
        s = t)) (do
      advance
      let params ← eventParamsWithin (← get).fuel #[]
      let comment ← OptionT.lift comment?
      nextLine
      enterScopeWith .handler (some .none)
      checkEventParams nameToken.literal params
      let body ← block [.end, .eof]
      leaveScope
      let endComment ← OptionT.lift blockEnd
      let body := body.withComment endComment
      if problem.isNone then
        modify fun s => { s with handlers := s.handlers.push ⟨nameToken.literal, params, body⟩ }
      return .on token comment nameToken.literal params body) (Adds d σ (i + 1) 0 false rows) := by
    refine .moveTo (Q := fun s => (d.prelude.event? nameToken.literal).isNone = false ∧ Plain d declared ∧
      Listed d σ (i + 1) i rows [sign .on, space, ident nameToken.literal] (.heading declared) [] s)
      State.moves_advance ?_
      (handlerRest_writes hcomplete hsp token nameToken.literal problem)
    rintro s ⟨rfl, ⟨⟨hk, hplain, hjoined, hon⟩, rfl⟩, rfl⟩
    refine ⟨?_, hplain, .inl (hon.joined_advance hsp (by rw [hk]; rfl) hjoined), .params, .inr rfl, ?_⟩
    · rw [← hon.prelude]
      unfold State.handlerProblem? at hproblem
      split at hproblem
      · cases hproblem
      · split at hproblem
        · cases hproblem
        · next hevent => exact Bool.eq_false_iff.2 hevent
    · have hstep := hon.step (by rw [hk]; nofun) (by rw [hk]; nofun) (w := [space, ident s.cur.literal])
        (c := (Scribe.heading declared).goTo .params) (by rw [hk]; rfl) nofun
      simpa [params, Scribe.declareAll, Page.add] using hstep.toOn.mono (Nat.le_succ _)
  cases problem with
  | none =>
    show Gets _ (pure PUnit.unit >>= _) _
    rw [pure_bind]
    exact hrest.conseq (fun s hs => ⟨rfl, hs⟩) fun _ _ => id
  | some p => exact .liftBind (Parses.reportedHere (Q := fun _ _ => False)) fun _ => Parses.never hrest

end TinyScript.Parsing
