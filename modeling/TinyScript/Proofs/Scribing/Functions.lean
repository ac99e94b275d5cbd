import TinyScript.Proofs.Scribing.Headers

/-!
# Copies of functions and handlers

The first line of a function is copied as its signature has been read before.
-/

namespace TinyScript.Parsing
open Layout Word

variable {d : Draft} {σ : List Bool} {n m i j e : Nat} {p q : Page} {c c' : Scribe} {words w : List Word}
  {rows : List Row} {s : State} {declared : List String} {sig : Signature}

/-! ### Signatures -/

/-- The draft of what goes on from the first line of a function. -/
def Draft.lineAt (d : Draft) (known : List Signature) (fn : String → Bool) (i : Nat) (rows : List Row)
    (declared : List String) : Draft :=
  { d with known, bodies := [], fn, start := i, first := blankPage rows 0 false declared }

/-- The first line of a function is read as a signature, wherever it is copied to. -/
structure Draft.Headed (d : Draft) (i : Nat) (sig : Signature) : Prop where
  kind : (d.tokenAt (d.next i)).kind = .ident
  name : (d.tokenAt (d.next i)).literal = sig.name
  copied : ∀ fn rows declared, fn sig.name → ∃ e c, HeadCopied (d.lineAt [] fn i rows declared) i rows declared sig e c

theorem Copied.congr {d' : Draft} (h : Copied d e p) (htokens : d'.tokens = d.tokens) (heof : d'.eof = d.eof)
    (hfn : d'.fn = d.fn) (hstart : d'.start = d.start) (hfirst : d'.first = d.first) : Copied d' e p := by
  have hat (i : Nat) : d'.tokenAt i = d.tokenAt i := by rw [Draft.tokenAt, Draft.tokenAt, htokens, heof]
  have hblank (i : Nat) : d'.afterBlank i = d.afterBlank i := by rw [Draft.afterBlank, Draft.afterBlank, hat]
  induction h with
  | start =>
    rw [← hstart, ← hfirst]
    exact .start
  | blank _ hk ih => exact ih.blank (hat _ ▸ hk)
  | token _ heof hk hstroke ih =>
    rw [← hat, ← hfn, ← hblank] at hstroke
    exact ih.token (hat _ ▸ heof) (hat _ ▸ hk) hstroke

/-- What goes on from a copy is part of it. -/
theorem Copied.trans (hfirst : Copied d i (blankPage rows 0 false declared))
    (h : Copied (d.lineAt [] d.fn i rows declared) e p) : Copied d e p := by
  induction h with
  | start => exact hfirst
  | blank _ hk ih => exact ih.blank hk
  | token _ heof hk hstroke ih => exact ih.token heof hk hstroke

/-- Nothing but functions is known. -/
structure Outline.Fresh (d : Draft) (o : Outline) : Prop where
  prelude : o.prelude = d.prelude
  declared : o.declared = #[]
  scopes : o.scopes = []

/-- Before the program is read. -/
structure Fresh (d : Draft) (o : Outline) (s : State) : Prop where
  tokens : s.tokens = d.tokens
  eof : s.eof = d.eof
  spacing : s.spacing = [false]
  outline : s.outline = o

/-- At the first line of a function before the program is read. -/
theorem Fresh.on {o : Outline} (ho : o.Fresh d) (h : Fresh d o s) (fn : String → Bool) (rows : List Row)
    (declared : List String)
    (hpos : s.pos = i) (hle : i ≤ d.tokens.size) :
    On (d.lineAt o.funcs fn i rows declared) [false] i (blankPage rows 0 false declared) s := by
  have hscopes : s.scopes = [] := by
    have hread : s.scopes.asRead = [] := (congrArg Outline.scopes h.outline).trans ho.scopes
    exact List.map_eq_nil_iff.1 hread
  have hdeclared : s.declared = #[] := (congrArg Outline.declared h.outline).trans ho.declared
  refine { tokens := h.tokens, eof := h.eof, prelude := (congrArg Outline.prelude h.outline).trans ho.prelude,
           known := congrArg Outline.funcs h.outline, spacing := h.spacing, lower := hpos ▸ Nat.le_refl _,
           upper := hpos ▸ hle,
           scopes := ?_, bodies := ?_, copied := ?_ }
  · rw [hscopes]
    exact List.nil_subset _
  · rw [hdeclared]
    rfl
  · rw [hpos]
    exact .start (d := (d.lineAt o.funcs fn i rows declared))

/-- What is known of each of some cases is known of all of them. -/
theorem Gets.all {α ι : Type} {P : State → Prop} {Q : α → State → Prop} {C : ι → Prop} {R : ι → α → State → Prop}
    {m : Attempt α} (hm : Gets P m Q) (h : ∀ x, C x → Gets P m (R x)) :
    Gets P m fun a s => Q a s ∧ ∀ x, C x → R x a s := by
  intro s hs hclean
  obtain ⟨hc, a, ha, hQ⟩ := hm s hs hclean
  refine ⟨hc, a, ha, hQ, fun x hx => ?_⟩
  obtain ⟨-, b, hb, hR⟩ := h x hx s hs hclean
  obtain rfl : a = b := Option.some.inj (ha.symm.trans hb)
  exact hR

theorem signature_headed {o : Outline} (ho : o.Fresh d) :
    Gets (fun s => (s.pos = i ∧ i ≤ d.tokens.size ∧ s.cur.kind = .func) ∧ Fresh d o s) signature fun r s =>
      d.Headed i r.2 ∧ Fresh d o s := by
  have hcopies (x : (String → Bool) × List Row × List String) (hfn : x.1 (d.tokenAt (d.next i)).literal) :
      Gets (fun s => (s.pos = i ∧ i ≤ d.tokens.size ∧ s.cur.kind = .func) ∧ Fresh d o s) signature fun r s =>
        ((d.tokenAt (d.next i)).kind = .ident ∧ (d.tokenAt (d.next i)).literal = r.2.name) ∧
          (∃ declared', Within (d.lineAt o.funcs x.1 i x.2.1 x.2.2) [false] i declared' s) ∧
            ∃ e c, HeadCopied (d.lineAt o.funcs x.1 i x.2.1 x.2.2) i x.2.1 x.2.2 r.2 e c := by
    refine (signature_writes (d := (d.lineAt o.funcs x.1 i x.2.1 x.2.2)) (σ := [false]) x.2.1 x.2.2 rfl hfn).conseq ?_
      fun _ _ => id
    rintro s ⟨⟨hpos, hle, hk⟩, hs⟩
    exact ⟨hpos, hk, hs.on ho _ _ _ hpos hle⟩
  have hall := Gets.all (hcopies (fun _ => true, [], []) rfl) hcopies
  have hreads : Parses (At True o) signature.run fun r s => True ∧ s.outline = o ∧ ∀ a, r = some a → a.2.Settled :=
    signature_reads
  refine Parses.conseq (Parses.and hall hreads) (fun s hs => ⟨hs, trivial, hs.2.outline⟩) ?_
  rintro r s ⟨⟨r, rfl, ⟨⟨hkind, hname⟩, ⟨_, hwithin⟩, -⟩, hcopied⟩, -, houtline, -⟩
  refine ⟨r, rfl, ⟨hkind, hname, fun fn rows declared hfn => ?_⟩, ?_⟩
  · obtain ⟨-, -, e, c, hhead⟩ := hcopied (fn, rows, declared) (hname ▸ hfn)
    exact ⟨e, c, { hhead with copied := hhead.copied.congr rfl rfl rfl rfl rfl }⟩
  · exact ⟨hwithin.tokens, hwithin.eof, hwithin.spacing, houtline⟩

/-- The name of the function that starts at an index. -/
def Draft.nameAt (d : Draft) (i : Nat) : String :=
  (d.tokenAt (d.next i)).literal

/-- The signatures at some indices are known, and no two of them are of one name. -/
structure Signed (d : Draft) (known : List Signature) (positions : List Nat) : Prop where
  headed : ∀ i ∈ positions, ∃ sig, known.find? (·.name == d.nameAt i) = some sig ∧ d.Headed i sig
  unique : ∀ i ∈ positions, ∀ j ∈ positions, d.nameAt i = d.nameAt j → i = j
  /-- No function has the name of a global. -/
  globals : ∀ name, d.prelude.isGlobal name → (known.find? (·.name == name)).isSome = (d.prelude.func? name).isSome

theorem Signed.add {known : List Signature} {positions : List Nat} (h : Signed d known positions)
    (hsig : d.Headed i sig)
    (hglobal : d.prelude.isGlobal sig.name = false) (hnew : known.find? (·.name == sig.name) = none) :
    Signed d (sig :: known) (i :: positions) := by
  have hname : d.nameAt i = sig.name := hsig.name
  have hne (j : Nat) (hj : j ∈ positions) : d.nameAt i ≠ d.nameAt j := by
    intro heq
    obtain ⟨sig', hsig', -⟩ := h.headed j hj
    rw [← heq, hname, hnew] at hsig'
    cases hsig'
  refine ⟨fun j hj => ?_, fun j hj k hk heq => ?_, fun name hname => ?_⟩
  · rcases List.mem_cons.1 hj with rfl | hj
    · exact ⟨sig, by simp [hname], hsig⟩
    · obtain ⟨sig', hsig', hheaded⟩ := h.headed j hj
      refine ⟨sig', ?_, hheaded⟩
      rw [List.find?_cons_of_neg, hsig']
      simpa [← hname] using hne j hj
  · rcases List.mem_cons.1 hj with hj' | hj' <;> rcases List.mem_cons.1 hk with hk' | hk'
    · rw [hj', hk']
    · exact absurd (hj' ▸ heq) (hne k hk')
    · exact absurd (hk' ▸ heq.symm) (hne j hj')
    · exact h.unique j hj' k hk' heq
  · have hother : sig.name ≠ name := by
      rintro rfl
      rw [hglobal] at hname
      cases hname
    rw [List.find?_cons_of_neg (by simpa using hother), h.globals name hname]

/-- The signatures at some indices have been read. -/
def SignedAt (d : Draft) (positions : List Nat) (s : State) : Prop :=
  ∃ o : Outline, o.Fresh d ∧ Signed d o.funcs positions ∧ Fresh d o s

theorem addSignature_signed {o : Outline} (ho : o.Fresh d) {positions : List Nat} (token : Token) (sig : Signature) :
    Parses (fun s => Signed d o.funcs positions ∧ d.Headed i sig ∧ Fresh d o s) (addSignature token sig) fun _ =>
      SignedAt d (i :: positions) := by
  have hend : Parses (fun s => Signed d o.funcs positions ∧ d.Headed i sig ∧ Fresh d o s ∧
      s.prelude.isGlobal sig.name = false ∧ s.isFunc sig.name = false)
      (modify fun s => { s with funcs := sig :: s.funcs }) fun _ => SignedAt d (i :: positions) := by
    refine .step (fun _ => rfl) ?_
    rintro s ⟨hsigned, hheaded, hs, hglobal, hnew⟩
    have hfuncs : s.funcs = o.funcs := congrArg Outline.funcs hs.outline
    have hprelude : s.prelude = d.prelude := (congrArg Outline.prelude hs.outline).trans ho.prelude
    refine ⟨{ o with funcs := sig :: o.funcs }, ⟨ho.prelude, ho.declared, ho.scopes⟩, hsigned.add hheaded ?_ ?_,
      ⟨hs.tokens, hs.eof, hs.spacing, ?_⟩⟩
    · rw [← hprelude, hglobal]
    · rw [← hfuncs]
      simpa [State.isFunc, State.func?] using hnew
    · rw [← hs.outline]
      rfl
  refine Parses.bind (Parses.state (Q := fun t s => (Signed d o.funcs positions ∧ d.Headed i sig ∧ Fresh d o s) ∧ s = t)
    fun s hs => ⟨hs, rfl⟩) fun t => ?_
  have hnamed : Parses (fun s => t.prelude.isGlobal sig.name = false ∧
      (Signed d o.funcs positions ∧ d.Headed i sig ∧ Fresh d o s) ∧ s = t) (do
      if (t.prelude.func? sig.name).isSome then
        reportAt token (.overridesFunction sig.name)
      else if t.isFunc sig.name then
        reportAt token (.functionRedeclared sig.name)
      modify fun s => { s with funcs := sig :: s.funcs }) fun _ => SignedAt d (i :: positions) := by
    dsimp only
    split
    · exact (Parses.reportedAt (Q := fun _ _ => False)).bind fun _ => hend.never
    split
    · exact (Parses.reportedAt (Q := fun _ _ => False)).bind fun _ => hend.never
    · next hnew =>
      refine hend.conseq ?_ fun _ _ => id
      rintro s ⟨hglobal, ⟨hsigned, hheaded, hs⟩, rfl⟩
      exact ⟨hsigned, hheaded, hs, hglobal, Bool.eq_false_iff.2 hnew⟩
  dsimp only
  split
  · exact (Parses.reportedAt (Q := fun _ _ => False)).bind fun _ => hnamed.never
  · next hglobal => exact hnamed.conseq (fun s hs => ⟨Bool.eq_false_iff.2 hglobal, hs⟩) fun _ _ => id

/-- Reads the signature of a function. -/
theorem signatureAt_signed {positions : List Nat} (hi : i < d.tokens.size) (hk : (d.tokenAt i).kind = .func) :
    Parses (SignedAt d positions) (signatureAt i) fun _ => SignedAt d (i :: positions) := by
  have hnone : Outline.Fresh d ⟨d.prelude, [], #[], #[], []⟩ := ⟨rfl, rfl, rfl⟩
  refine (Parses.chosen (C := Outline.Fresh d) hnone fun o ho => ?_).conseq
    (P := fun s => ∃ o : Outline, o.Fresh d ∧ Signed d o.funcs positions ∧ Fresh d o s) (fun _ => id) fun _ _ => id
  refine Parses.bind (Parses.step (Q := fun _ s => Signed d o.funcs positions ∧
    (s.pos = i ∧ i ≤ d.tokens.size ∧ s.cur.kind = .func) ∧ Fresh d o s) (fun _ => rfl) ?_) fun _ => ?_
  · rintro s ⟨hsigned, hs⟩
    refine ⟨hsigned, ⟨rfl, Nat.le_of_lt hi, ?_⟩, ⟨hs.tokens, hs.eof, hs.spacing, hs.outline⟩⟩
    have hcur : ({ s with pos := i } : State).cur = d.tokenAt i := by
      rw [State.cur, State.tokenAt, Draft.tokenAt, hs.tokens, hs.eof]
    rw [hcur, hk]
  refine Parses.bind (signature_headed ho).frame fun r => ?_
  split
  · next token sig =>
    refine (addSignature_signed ho token sig).conseq ?_ fun _ _ => id
    rintro s ⟨r, hr, hsigned, hheaded, hs⟩
    cases hr
    exact ⟨hsigned, hheaded, hs⟩
  · exact .pure fun s hs => by simp at hs

theorem signatures_signed (positions done : List Nat)
    (hpositions : ∀ i ∈ positions, i < d.tokens.size ∧ (d.tokenAt i).kind = .func) :
    Parses (SignedAt d done) (positions.forM signatureAt) fun _ => SignedAt d (positions.reverse ++ done) := by
  induction positions generalizing done with
  | nil => exact .pure fun _ => id
  | cons i positions ih =>
    obtain ⟨hi, hrest⟩ := List.forall_mem_cons.1 hpositions
    rw [List.reverse_cons, List.append_assoc]
    exact (signatureAt_signed hi.1 hi.2).bind fun _ => ih (i :: done) hrest

/-! ### First lines -/

/-- All functions are known by the first lines they have. -/
structure Draft.Complete (d : Draft) : Prop where
  knows : d.Knows
  headed : ∀ i, (d.tokenAt i).kind = .func → ∃ sig, d.known.find? (·.name == d.nameAt i) = some sig ∧ d.Headed i sig
  unique : ∀ i j name, d.Heads i name → d.Heads j name → i = j

theorem Within.goOn {j : Nat} (h : Within d σ n declared s) (hle : s.pos ≤ j) (hj : j ≤ d.tokens.size) :
    Within d σ n declared { s with pos := j } := by
  exact { h with lower := Nat.le_trans h.lower hle, upper := hj }

/-- The end of the line is the same for all tokens of it. -/
theorem Within.toLineEnd_joined {j : Nat} (h : Within d σ n declared s) (hjoined : d.Joined s.pos j) (hle : s.pos ≤ j)
    (hj : j ≤ d.tokens.size) : s.toLineEnd = ({ s with pos := j } : State).toLineEnd := by
  obtain ⟨k, rfl⟩ := Nat.exists_eq_add_of_le hle
  induction k generalizing s with
  | zero => rfl
  | succ k ih =>
    have hk : endsLine s.cur.kind = false := by
      rw [h.cur]
      exact hjoined s.pos (Nat.le_refl _) (by omega)
    have heof : s.cur.kind ≠ .eof := by intro heof; rw [heof] at hk; cases hk
    have hnl : s.cur.kind ≠ .nl := by intro hnl; rw [hnl] at hk; cases hk
    have hpos := h.pos_advanceOne heof
    have hone : s.advanceOne = { s with pos := s.pos + 1 } := by
      rw [State.advanceOne, if_pos (h.tokens ▸ h.lt_size heof)]
    rw [← h.toLineEnd_advanceOne heof hnl, ih h.advanceOne (fun l hl hl' => hjoined l (by omega) (by omega))
      (by omega) (by omega),
      hpos, hone]
    congr 2
    omega

/-- At the end of the first line of a function, which goes on from an index. -/
theorem Within.toLineEnd_comment {e : Nat} (h : Within d σ n declared s) (hi : i ≤ s.pos) (hie : i < e)
    (hjoined : d.Joined i e)
    (hle : s.pos ≤ e) (he : e ≤ d.tokens.size) (hends : endsLine (d.tokenAt e).kind) :
    let t : State := { s with pos := e }
    s.toLineEnd.nextLine = t.nextLine ∧
      (match s.toLineEnd.prev? with
        | some t => if t.kind = .comment then some t.literal else none
        | none => none) = t.comment? := by
  intro t
  have hwithin : Within d σ n declared t := h.goOn hle he
  have hend : s.toLineEnd = t.toLineEnd := h.toLineEnd_joined (fun l hl hl' =>
    hjoined l (Nat.le_trans hi hl) hl') hle he
  have hcur : t.cur = d.tokenAt e := hwithin.cur
  rw [hend]
  by_cases hcomment : (d.tokenAt e).kind = .comment
  · have heof : t.cur.kind ≠ .eof := by rw [hcur, hcomment]; nofun
    have hnl : t.cur.kind ≠ .nl := by rw [hcur, hcomment]; nofun
    have hpos : t.advanceOne.pos = e + 1 := hwithin.pos_advanceOne heof
    have hlast : t.advanceOne.cur.kind = .nl ∨ t.advanceOne.cur.kind = .eof := by
      rw [hwithin.advanceOne.cur, hpos]
      exact d.comment_last e hcomment
    have hone : t.toLineEnd = t.advanceOne := by
      rw [← hwithin.toLineEnd_advanceOne heof hnl, toLineEnd_of_end _ hlast]
    rw [hone]
    refine ⟨hwithin.nextLine_advanceOne heof hnl, ?_⟩
    have hprev : t.advanceOne.prev? = some (d.tokenAt e) := by
      rw [State.prev?, if_neg (by omega), hpos, Nat.add_sub_cancel, hwithin.advanceOne.tokenAt]
    rw [hprev, State.comment?, hcur]
  · have hlast : t.cur.kind = .nl ∨ t.cur.kind = .eof := by
      rw [hcur]
      cases hk : (d.tokenAt e).kind <;> simp_all [endsLine]
    rw [toLineEnd_of_end _ hlast]
    refine ⟨rfl, ?_⟩
    have hprev : t.prev? = some (d.tokenAt (e - 1)) := by
      rw [State.prev?, if_neg (by show ¬ e = 0; omega), hwithin.tokenAt]
    have hk := hjoined (e - 1) (by omega) (by omega)
    rw [hprev, State.comment?, hcur, if_neg hcomment]
    exact if_neg (by intro h; rw [h] at hk; cases hk)

theorem runOption_get_bind {α : Type} (k : State → Attempt α) (s : State) :
    (get >>= k : Attempt α).run.run s = (k s).run.run s :=
  rfl

/-- No statement starts with a type. -/
theorem statement_startsType {block : Blocks} (hknows : d.Knows) (hsp : σ.headD false = false)
    (hblock : BlocksWrite d σ block) :
    Parses (fun s => startsType s.cur.kind) (statement block).run fun _ _ => False := by
  have hwrites := statement_writes (n := 0) hknows hsp hblock 0 false [] nofun
  refine Parses.ofRun (fun s h => hwrites.began h) fun s hs hclean => ?_
  have hfails : Gets (fun _ => True) (orNextLine (fail (.unexpectedInput s.cur)) : Attempt Stmt) fun _ _ => False :=
    .orNextLine (Aborts.fail _).gets
  have hrun : (statement block).run.run s = (orNextLine (fail (.unexpectedInput s.cur)) : Attempt Stmt).run.run s := by
    unfold statement
    rw [runOption_get_bind]
    split
    case h_10 => rfl
    all_goals rename_i hk; rw [hk] at hs; cases hs
  rw [hrun] at hclean
  obtain ⟨-, a, -, h⟩ := hfails s (fun _ => trivial) hclean
  exact h

/-- A block does not begin with a type. -/
theorem block_startsType (hknows : d.Knows) (hsp : σ.headD false = false) (ends : List TokenKind)
    (hends : ∀ k, startsType k → ends.contains k = false) :
    Parses (fun s => startsType s.cur.kind) (block ends) fun _ _ => False := by
  refine Parses.bind (Parses.state (Q := fun _ s => startsType s.cur.kind) fun _ => id) fun t => .lookThen fun token =>
    Parses.bind (Parses.state (Q := fun _ s => startsType s.cur.kind) fun _ hs => hs.1) fun t' => ?_
  have hblock := blockWithin_writes hknows hsp t.tokens.size
  have hrest (fuel : Nat) (done : Array Stmt) (terminated : Bool) := stmtsWithin_writes (n := 0) hknows hsp
    hblock 0 false []
    nofun ends fuel done terminated
  have hstmts : Parses (fun s => startsType s.cur.kind) (stmtsWithin (blockWithin t.tokens.size) ends t'.fuel #[] false)
      fun _ _ => False := by
    refine .lookThen fun token => ?_
    split
    · next hcontains =>
      refine .pure ?_
      rintro s ⟨hstarts, rfl⟩
      rw [hends _ hstarts] at hcontains
      cases hcontains
    refine Parses.bind ((statement_startsType hknows hsp hblock).conseq (fun _ hs => hs.1) fun _ _ => id) fun r => ?_
    cases r with
    | none => exact (hrest _ _ _).never
    | some stmt =>
      dsimp only
      split
      · exact (Parses.reportedAt (Q := fun _ _ => False)).bind fun _ => (hrest _ _ _).never
      · exact (hrest _ _ _).never
  refine hstmts.bind fun ss => ?_
  dsimp only
  split
  · exact (Parses.reportedAt (Q := fun _ _ => False)).bind fun _ => .pure fun _ => id
  · exact .pure fun _ => id

/-! ### Parameters -/

/-- At the start of a body, or at a type, which no body starts with. -/
def AtBody (d : Draft) (σ : List Bool) (n : Nat) (rows : List Row) (declared : List String) (s : State) : Prop :=
  Within d σ n declared s ∧ (startsType s.cur.kind ∨ Whole d σ n (blankPage rows 1 true declared) s)

theorem AtBody.withScopes {ss : Scopes} (h : AtBody d σ n rows declared s) (hss : ss.names ⊆ declared) :
    AtBody d σ n rows declared { s with scopes := ss } :=
  ⟨{ h.1 with scopes := hss }, h.2.imp id fun hwhole => { hwhole with scopes := hss }⟩

theorem AtBody.declare {v : Var} {used : Bool} (h : AtBody d σ n rows declared s) (hv : v.name ∈ declared) :
    AtBody d σ n rows declared { s with scopes := s.scopes.declare v used } :=
  h.withScopes (List.Subset.trans (Scopes.names_declare s.scopes v used) (List.cons_subset.2 ⟨hv, h.1.scopes⟩))

theorem mem_declareAll {c : Scribe} {vs : List Var} {name : String}
    (h : name ∈ c.declared ∨ ∃ v ∈ vs, v.name = name) : name ∈ (c.declareAll vs).declared := by
  induction vs generalizing c with
  | nil => simpa [Scribe.declareAll] using h
  | cons v vs ih =>
    refine ih (c := c.declare v.name) ?_
    rcases h with h | ⟨w, hw, rfl⟩
    · exact .inl (List.mem_cons_of_mem _ h)
    · rcases List.mem_cons.1 hw with rfl | hw
      · exact .inl List.mem_cons_self
      · exact .inr ⟨w, hw, rfl⟩

theorem declareParam_writes (hknows : d.Knows) (v : Var) (ty : Ty) (hv : v.name ∈ declared) :
    Parses (fun s => Plain d c.declared ∧ AtBody d σ n rows declared s) (declareParam v ty) fun _ s =>
      Plain d (c.declare v.name).declared ∧ AtBody d σ n rows declared s := by
  refine Parses.bind (Parses.checkDecl (Q := fun _ s => Plain d (c.declare v.name).declared ∧
    AtBody d σ n rows declared s)
    fun s hs hfn => ⟨hs.1.cons ?_, hs.2⟩) fun _ => Parses.setScopes fun s hs => ⟨hs.1, hs.2.declare hv⟩
  rwa [hs.2.1.isFunc hknows] at hfn

theorem forM_declareParam_writes (hknows : d.Knows) (vs : List Var) (hvs : ∀ v ∈ vs, v.name ∈ declared) :
    Parses (fun s => Plain d c.declared ∧ AtBody d σ n rows declared s)
    (vs.forM fun v => declareParam v v.ty) fun _ s =>
      Plain d (c.declareAll vs).declared ∧ AtBody d σ n rows declared s := by
  induction vs generalizing c with
  | nil => exact .pure fun _ => id
  | cons v vs ih =>
    obtain ⟨hv, hvs⟩ := List.forall_mem_cons.1 hvs
    exact (declareParam_writes hknows v v.ty hv).bind fun _ => ih (c := c.declare v.name) hvs

theorem declareParams_writes (rows : List Row) (declared : List String) (hknows : d.Knows) (sig : Signature)
    (hvs : ∀ v ∈ lineParams sig, v.name ∈ declared) :
    Parses (fun s => Plain d c.declared ∧ AtBody d σ n rows declared s) (declareParams sig) fun _ s =>
      Plain d (c.declareAll (lineParams sig)).declared ∧ AtBody d σ n rows declared s := by
  have hall (v : Var) (hv : v ∈ sig.params ∨ sig.variadic = some v) : v.name ∈ declared :=
    hvs v (List.mem_append.2 (hv.imp id Option.mem_toList.2))
  refine (forM_declareParam_writes hknows sig.params fun v hv => hall v (.inl hv)).bind fun _ => ?_
  unfold lineParams
  cases hvariadic : sig.variadic with
  | none => exact .pure fun s hs => by simpa using hs
  | some v =>
    refine (declareParam_writes (c := c.declareAll sig.params) hknows v (.array v.ty) (hall v (.inr hvariadic))).conseq
      (fun _ => id) fun _ s hs => ?_
    rw [Option.toList_some, Scribe.declareAll_append]
    exact hs

/-- Reads the body of a function or a handler. -/
theorem body_writes (hknows : d.Knows) (hsp : σ.headD false = false) :
    Parses (fun s => Plain d declared ∧ AtBody d σ n rows declared s) (block [.end, .eof]) fun b =>
      Lines d σ n 1 true (rows ++ stmtsRows 1 b.stmts) := by
  refine (Parses.or ((block_startsType hknows hsp [.end, .eof] ?_).conseq (fun _ => id) fun _ _ => False.elim)
    ((block_writes hknows hsp [.end, .eof] n 0 true rows).conseq (fun _ => id) fun b s hs => hs.2)).conseq ?_
    fun _ _ => id
  · intro k hk
    cases k <;> first | rfl | cases hk
  · rintro s ⟨hplain, -, hstarts | hwhole⟩
    · exact .inl hstarts
    · exact .inr ⟨declared, hplain, hwhole⟩

/-! ### Functions -/

/-- The draft after the body of one more function has been read. -/
def Draft.declaring (d : Draft) (name : String) : Draft :=
  { d with bodies := d.bodies ++ [name] }

theorem Lines.declaring {level : Nat} {inBody : Bool} {f : Function} (h : Lines d σ n level inBody rows s) :
    Lines (d.declaring f.signature.name) σ n level inBody rows { s with declared := s.declared.push f } := by
  obtain ⟨declared, hplain, hwhole⟩ := h
  refine ⟨declared, hplain, { hwhole with bodies := ?_, copied := ?_ }⟩
  · rw [Array.toList_push, List.map_append, hwhole.bodies]
    rfl
  · refine hwhole.copied.imp (fun h => h.congr rfl rfl rfl rfl rfl) ?_
    rintro ⟨hk, j, q, words, c, hcopied, hrest⟩
    exact ⟨hk, j, q, words, c, hcopied.congr rfl rfl rfl rfl rfl, hrest⟩

/-- The first line of a function up to its end. -/
theorem heading_writes (hsp : σ.headD false = false) {sig : Signature} (hheaded : d.Headed i sig) (hfn : d.fn sig.name)
    (hk : (d.tokenAt i).kind = .func) (hs : s.pos = d.next i) (hcopied : Copied d i (blankPage rows 0 false declared))
    (hwithin : Within d σ n declared s) :
    AtBody d σ n (rows ++ [row 0 (funcHead sig ++ trailing (match s.toLineEnd.prev? with
        | some t => if t.kind = .comment then some t.literal else none
        | none => none)) .opener])
      ((Scribe.heading declared).declareAll (lineParams sig)).declared s.toLineEnd.nextLine := by
  obtain ⟨e, c, hhead⟩ := hheaded.copied d.fn rows declared hfn
  have hsub : declared ⊆ ((Scribe.heading declared).declareAll (lineParams sig)).declared :=
    fun name hname => mem_declareAll (.inl hname)
  have hle {j : Nat} (hij : i < j) (hws : (d.tokenAt j).kind ≠ .ws) : d.next i ≤ j := by
    unfold Draft.next
    split
    · next hws' =>
      have hne : j ≠ i + 1 := by rintro rfl; exact hws hws'
      omega
    · omega
  -- the line ends where the signature does, or before a type in it: then the next line starts with that type
  rcases hhead.along with hjoined | ⟨j, hij, hjoined, hnl, hstarts⟩
  · have hends : endsLine (d.tokenAt e).kind := hhead.ends
    have hnext : s.pos ≤ e := hs ▸ hle hhead.lower (by intro hws; rw [hws] at hends; cases hends)
    obtain ⟨hnextLine, hcomment⟩ := hwithin.toLineEnd_comment
      (by rw [hs]; unfold Draft.next; split <;> omega) hhead.lower
      hjoined hnext hhead.upper hends
    rw [hnextLine, hcomment]
    obtain ⟨t, ht⟩ : ∃ t : State, t = { s with pos := e } := ⟨_, rfl⟩
    rw [← ht]
    have hon : On d σ n (⟨rows, funcHead sig, c⟩ : Page) t := by
      subst ht
      refine { (hwithin.goOn hnext hhead.upper).weaken ?_ with copied := hcopied.trans hhead.copied }
      exact hhead.declared ▸ hsub
    have hcur : t.cur = d.tokenAt e := by
      subst ht
      exact hon.cur
    have hended : t.atLineEnd := atLineEnd_of_endsLine (hcur ▸ hends)
    have hwhole := On.finish (p := (⟨rows, [], c⟩ : Page)) (funcHead sig) hon hhead.finishes hhead.declared hended
    have hpage : (⟨rows ++ [⟨[] ++ funcHead sig ++ trailing t.comment? ++ [newline],
        ((Scribe.heading declared).declareAll (lineParams sig)).kind⟩], [],
          ((Scribe.heading declared).declareAll (lineParams sig)).nextLine⟩ : Page) =
        blankPage (rows ++ [row 0 (funcHead sig ++ trailing t.comment?) .opener]) 1 true
          ((Scribe.heading declared).declareAll (lineParams sig)).declared := by
      rw [Scribe.declareAll_kind, Scribe.declareAll_nextLine]
      simp [row, blankPage, indent]
      exact ⟨rfl, rfl⟩
    have hwhole := hpage ▸ hwhole
    exact ⟨hwhole.toWithin, .inr hwhole⟩
  · have hjoined : d.Joined i j := hjoined
    have hnl : (d.tokenAt j).kind = .nl := hnl
    have hne : i < j := Nat.lt_of_le_of_ne hij (by rintro rfl; cases hk.symm.trans hnl)
    have hnext : s.pos ≤ j := hs ▸ hle hne (by simp [hnl])
    have hsize : j ≤ d.tokens.size := by
      refine Nat.le_of_not_lt fun hlt => ?_
      have heof : d.tokenAt j = d.eof := by simp [Draft.tokenAt, Array.getElem?_eq_none (Nat.le_of_lt hlt)]
      rw [heof, d.eof_kind] at hnl
      cases hnl
    have ht := hwithin.goOn hnext hsize
    have hcur : ({ s with pos := j } : State).cur.kind = .nl := ht.cur ▸ hnl
    have hend : s.toLineEnd = { s with pos := j } := by
      rw [hwithin.toLineEnd_joined (fun l hl hl' =>
        hjoined l (by rw [hs] at hl; unfold Draft.next at hl; split at hl <;> omega) hl')
        hnext hsize, toLineEnd_of_end _ (.inl hcur)]
    rw [hend, nextLine_of_nl _ hcur]
    refine ⟨ht.advance.weaken hsub, .inl ?_⟩
    rw [ht.advance.cur, ht.pos_advance hsp (by simp [hcur])]
    exact hstarts

section
variable {sig? : Option Signature} {nameToken : Token} {comment : Option String} {body : Block}

theorem functionEnd_writes (rows : List Row) (sig? : Option Signature) (nameToken : Token) (comment : Option String)
    (body : Block) (hcomplete : d.Complete) (hsp : σ.headD false = false) (hhead : d.Heads i sig.name)
    (hbodies : ∀ name ∈ d.bodies, ∃ j < i, d.Heads j name) (token : Token) :
    Gets (fun s => (sig? = some sig ∧ nameToken.kind = .ident) ∧ Lines d σ n 1 true
        (rows ++ row 0 (funcHead sig ++ trailing comment) .opener :: stmtsRows 1 body.stmts) s)
      (functionEnd token nameToken comment sig? body) fun stmt s =>
      Adds (d.declaring sig.name) σ n 0 false rows stmt s := by
  refine .liftBind (Parses.frame (blockEnd_writes 0 true hsp)) fun endComment => ?_
  cases sig? with
  | none => exact .failure fun s hs => by simp at hs
  | some sig' =>
    refine .ite (fun hk => .failure fun s hs => hk hs.1.2) fun _ => .state fun t =>
      .ite (fun hany => .failure ?_) fun _ => ?_
    · rintro s ⟨⟨⟨hsig, -⟩, hs⟩, rfl⟩
      obtain rfl := Option.some.inj hsig
      obtain ⟨f, hf, hname⟩ := Array.any_eq_true'.1 hany
      obtain ⟨declared, -, hwhole⟩ := hs
      have hmem : sig'.name ∈ d.bodies := by
        rw [← hwhole.bodies, ← beq_iff_eq.1 hname]
        exact List.mem_map.2 ⟨f, Array.mem_toList_iff.2 hf, rfl⟩
      obtain ⟨j, hj, hheads⟩ := hbodies _ hmem
      exact absurd (hcomplete.unique _ _ _ hheads hhead) (Nat.ne_of_lt hj)
    · refine .liftBind (Parses.step (Q := fun _ => Adds (d.declaring sig.name) σ n 0 false rows
        (.func token comment sig' (body.withComment endComment))) (fun _ => rfl) ?_) fun _ => .pure fun _ => id
      rintro s ⟨⟨⟨hsig, -⟩, hs⟩, -⟩
      obtain rfl := Option.some.inj hsig
      have hs := Lines.declaring (f := ⟨sig', body.withComment endComment⟩) hs
      have hend : endKind 0 true = closeKind 0 := rfl
      rw [hend] at hs
      have hs := Lines.block (rows ++ [row 0 (funcHead sig' ++ trailing comment) .opener]) body (by simpa using hs)
      simpa [Adds, stmtRows, openKind] using hs

end

/-- After the name of a function has been read. -/
structure Named (d : Draft) (σ : List Bool) (n i : Nat) (rows : List Row) (declared : List String) (s : State) : Prop
    extends Within d σ n declared s where
  pos : s.pos = d.next i
  plain : Plain d declared
  copied : Copied d i (blankPage rows 0 false declared)

theorem function_writes (hcomplete : d.Complete) (hsp : σ.headD false = false)
    (hbodies : ∀ name ∈ d.bodies, ∃ j < i, d.Heads j name) :
    Gets (fun s => (s.pos = i ∧ LineStart d σ i 0 false rows declared s) ∧ s.cur.kind = .func) function fun stmt s =>
      Adds (d.declaring (d.nameAt i)) σ (i + 1) 0 false rows stmt s := by
  by_cases hk : (d.tokenAt i).kind = .func
  case neg =>
    refine Parses.conseq (function_parses (φ := False) (o := ⟨d.prelude, [], #[], #[], []⟩) False.elim).never ?_
      fun _ _ => False.elim
    rintro s ⟨⟨rfl, hs⟩, hfunc⟩
    exact hk (hs.2.cur ▸ hfunc)
  obtain ⟨sig, hsig, hheaded⟩ := hcomplete.headed i hk
  have hname : d.nameAt i = sig.name := hheaded.name
  have hfn : d.fn sig.name := by rw [hcomplete.knows, ← hname, hsig]; rfl
  have hhead : d.Heads i sig.name := ⟨hk, hheaded.name⟩
  rw [hname]
  -- only the name is read here: the parameters were read before all of the program, and the line is skipped
  unfold function
  refine .lookThen fun token => .moveTo (Q := Named d σ (i + 1) i rows declared) State.moves_advance ?_ <|
    .lookThen fun nameToken => .moveTo (Q := fun t => nameToken = d.tokenAt (d.next i) ∧
      ∃ s, t = s.toLineEnd ∧ Named d σ (i + 1) i rows declared s) State.moves_toLineEnd ?_ <| .state fun t => ?_
  · rintro s ⟨⟨⟨rfl, hs⟩, hfunc⟩, -⟩
    have heof : s.cur.kind ≠ .eof := by rw [hfunc]; nofun
    exact { hs.2.advance_lt heof with
      pos := hs.2.pos_advance hsp heof, plain := hs.1, copied := hs.2.copied }
  · rintro s ⟨hs, rfl⟩
    exact ⟨hs.cur.trans (congrArg d.tokenAt hs.pos), s, rfl, hs⟩
  dsimp only
  generalize hsig? : t.func? nameToken.literal = sig?
  obtain ⟨D, hD⟩ : ∃ D, D = ((Scribe.heading declared).declareAll (lineParams sig)).declared := ⟨_, rfl⟩
  obtain ⟨rows', hrows⟩ : ∃ rows', rows' = rows ++ [row 0 (funcHead sig ++ trailing (match t.prev? with
    | some t => if t.kind = TokenKind.comment then some t.literal else none
    | none => none)) .opener] := ⟨_, rfl⟩
  refine .moveTo (Q := fun s => (sig? = some sig ∧ nameToken.kind = .ident) ∧ Plain d declared ∧
    AtBody d σ (i + 1) rows' D s) State.moves_nextLine ?_ ?_
  · rintro s ⟨⟨rfl, s, rfl, hs⟩, rfl⟩
    have hfuncs : s.toLineEnd.func? (d.tokenAt (d.next i)).literal = some sig := by
      have hknown : s.toLineEnd.funcs = d.known := hs.known
      rw [State.func?, hknown]
      exact hsig
    refine ⟨⟨hsig?.symm.trans hfuncs, hheaded.kind⟩, hs.plain, ?_⟩
    subst hD hrows
    exact heading_writes hsp hheaded hfn hk hs.pos hs.copied hs.toWithin
  -- from the body on it is the same for a function that is known and for one that is not
  have hrest (result : Ty) (comment : Option String)
      (hrows : rows' = rows ++ [row 0 (funcHead sig ++ trailing comment) .opener]) :
        Parses (fun s => (sig? = some sig ∧ nameToken.kind = .ident) ∧ Plain d D ∧
      AtBody d σ (i + 1) rows' D s) (OptionT.run do
        let body ← block [.end, .eof]
        leaveScope
        if !result.same .none && !body.terminates then
          report .missingReturn
        functionEnd token nameToken comment sig? body) fun r s =>
          ∃ stmt, r = some stmt ∧ Adds (d.declaring sig.name) σ (i + 1) 0 false rows stmt s := by
    refine .liftBind (body_writes hcomplete.knows hsp).frame fun body => .liftBind (Parses.closeScope
      (Q := fun _ s => (sig? = some sig ∧ nameToken.kind = .ident) ∧ Lines d σ (i + 1) 1 true
        (rows' ++ stmtsRows 1 body.stmts) s)
      fun s hs => ⟨hs.1, hs.2.withScopes (Scopes.names_tail _)⟩) fun _ => ?_
    have hend := functionEnd_writes (n := i + 1) rows sig? nameToken comment body hcomplete hsp hhead hbodies token
    dsimp only
    split
    · exact Gets.liftBind (Parses.reportedHere (Q := fun _ _ => False)) fun _ => Parses.never hend
    · refine Gets.conseq hend (fun s hs => ⟨hs.1, ?_⟩) fun _ _ => id
      simpa [hrows] using hs.2
  refine .liftBind (Parses.setScopes (Q := fun _ s => (sig? = some sig ∧ nameToken.kind = .ident) ∧ Plain d declared ∧
    AtBody d σ (i + 1) rows' D s) fun s hs => ⟨hs.1, hs.2.1, hs.2.2.withScopes hs.2.2.1.scopes⟩) fun _ => ?_
  cases sig? with
  | none =>
    show Gets _ (pure PUnit.unit >>= _) _
    rw [pure_bind]
    exact Parses.conseq (hrest _ _ hrows) (fun s hs => by simp at hs) fun _ _ => id
  | some sig' =>
    refine .liftBind (Q := fun _ s => (some sig' = some sig ∧ nameToken.kind = .ident) ∧ Plain d D ∧
      AtBody d σ (i + 1) rows' D s) ?_ fun _ => hrest _ _ hrows
    -- the signature is the one that was looked up, so in the other case nothing is to be shown
    by_cases hsame : sig' = sig
    · subst hsame
      refine ((declareParams_writes (c := .heading declared) (n := i + 1) rows' D hcomplete.knows sig' ?_).frame
        (φ := some sig' = some sig' ∧ nameToken.kind = .ident)).conseq (fun _ => id) fun _ s hs =>
        ⟨hs.1, hD ▸ hs.2.1, hs.2.2⟩
      intro v hv
      rw [hD]
      exact mem_declareAll (.inr ⟨v, hv, rfl⟩)
    · have hmem (v : Var) (hv : v ∈ lineParams sig') : v.name ∈ (lineParams sig').map Var.name := List.mem_map_of_mem hv
      have hnever := declareParams_writes (d := d) (c := .heading declared) (n := i + 1) (σ := σ) rows' _
        hcomplete.knows sig' hmem
      exact hnever.never.conseq (fun s hs => hsame (Option.some.inj hs.1.1)) fun _ _ => False.elim

end TinyScript.Parsing
