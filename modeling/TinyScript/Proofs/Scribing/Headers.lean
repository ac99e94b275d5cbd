import TinyScript.Proofs.Scribing.StatementLists
import TinyScript.Proofs.Parsing.Programs

/-!
# Copies of the first lines of functions and handlers

The signatures of functions are read before the rest of the program. What is read of a line then is also what
is copied of it later, since a line break in a signature leads to a problem.
-/

namespace TinyScript.Layout

/-- Declares variables one after another. -/
def Scribe.declareAll (c : Scribe) (vs : List Var) : Scribe :=
  vs.foldl (fun c v => c.declare v.name) c

theorem Scribe.declareAll_append (c : Scribe) (vs : List Var) (v : Var) :
    c.declareAll (vs ++ [v]) = (c.declareAll vs).declare v.name := by
  simp [declareAll]

theorem Scribe.declareAll_kind (c : Scribe) (vs : List Var) : (c.declareAll vs).kind = c.kind := by
  induction vs generalizing c with
  | nil => rfl
  | cons v vs ih => exact ih (c.declare v.name)

theorem Scribe.declareAll_nextLine (c : Scribe) (vs : List Var) :
    (c.declareAll vs).nextLine = .atLine c.nextLevel c.nextInBody (c.declareAll vs).declared := by
  induction vs generalizing c with
  | nil => rfl
  | cons v vs ih => exact ih (c.declare v.name)

/-- At the start of a line with the first line of a function or a handler. -/
def Scribe.heading (declared : List String) : Scribe :=
  { Scribe.opening 0 false declared with nextInBody := true, kind := .opener }

theorem Finishes.params (fn : String → Bool) {c : Scribe} {place : Place} (hplace : place = .result ∨ place = .params) :
    Finishes fn c (c.goTo place) := by
  refine ⟨rfl, fun kind literal blank hk => ?_⟩
  rcases hplace with rfl | rfl <;> cases kind <;> first | rfl | cases hk

end TinyScript.Layout

namespace TinyScript.Parsing
open Layout Word

variable {d : Draft} {σ : List Bool} {n m i j : Nat} {p q : Page} {c c' : Scribe} {words w : List Word}
  {rows : List Row} {s : State} {declared : List String} {site : Site}

section
variable {α : Type} {P P' : State → Prop} {Q Q' : α → State → Prop}

theorem Parses.and {m : Parse α} (h : Parses P m Q) (h' : Parses P' m Q') :
    Parses (fun s => P s ∧ P' s) m fun a s => Q a s ∧ Q' a s :=
  fun s hs hclean =>
    ⟨(h s (fun hc => (hs hc).1) hclean).1, (h s (fun hc => (hs hc).1) hclean).2, (h' s (fun hc => (hs hc).2) hclean).2⟩

end

/-! ### Tokens of a line -/

/-- No line ends between two indices. -/
def Draft.Joined (d : Draft) (i j : Nat) : Prop :=
  ∀ k, i ≤ k → k < j → endsLine (d.tokenAt k).kind = false

/-- Whether a type starts with a token of the kind. -/
def startsType : TokenKind → Bool
  | .num | .string | .bool | .any | .lBracket | .lCurly => true
  | _ => false

/-- The line that goes on from an index ends before a type. -/
def Draft.Broken (d : Draft) (i : Nat) : Prop :=
  ∃ j, i ≤ j ∧ d.Joined i j ∧ (d.tokenAt j).kind = .nl ∧ startsType (d.tokenAt (d.next j)).kind

theorem Draft.Joined.succ (h : d.Joined i j) (hk : endsLine (d.tokenAt j).kind = false) : d.Joined i (j + 1) := by
  intro k hik hk'
  rcases Nat.lt_succ_iff_lt_or_eq.1 hk' with hlt | rfl
  · exact h k hik hlt
  · exact hk

theorem Draft.Joined.next (h : d.Joined i j) (hk : endsLine (d.tokenAt j).kind = false) : d.Joined i (d.next j) := by
  unfold Draft.next
  split
  · next hws => exact (h.succ hk).succ (by rw [hws]; rfl)
  · exact h.succ hk

theorem Within.pos_advance (h : Within d σ n declared s) (hsp : σ.headD false = false) (heof : s.cur.kind ≠ .eof) :
    s.advance.pos = d.next s.pos := by
  rw [h.advance_of_unspaced hsp, State.skipBlank, Draft.next, h.advanceOne.cur, h.pos_advanceOne heof]
  split
  · next hws =>
    have heof' : s.advanceOne.cur.kind ≠ .eof := by
      rw [h.advanceOne.cur, h.pos_advanceOne heof, hws]
      simp
    rw [h.advanceOne.pos_advanceOne heof', h.pos_advanceOne heof]
  · exact h.pos_advanceOne heof

theorem Within.joined_advance (h : Within d σ n declared s) (hsp : σ.headD false = false)
    (hk : endsLine s.cur.kind = false) (hjoined : d.Joined i s.pos) : d.Joined i s.advance.pos := by
  rw [h.pos_advance hsp (by rintro heof; rw [heof] at hk; cases hk)]
  exact hjoined.next (h.cur ▸ hk)

/-- A type begins with its first token. -/
theorem type_starts {φ : Prop} : Parses (fun s => startsType s.cur.kind → φ) Parsing.type fun ty _ =>
    ty.kind ≠ .illegal → φ := by
  refine Parses.ofRun (fun s h => (type_keeps (φ := True) (o := s.outline) s (fun _ => ⟨trivial, rfl⟩) h).1)
    fun s hs _ => ?_
  intro hlegal
  have hrun : ((match s.cur.kind with | _ => _ : Parse Ty).run s.advance).1.kind ≠ .illegal := hlegal
  cases hk : s.cur.kind <;> rw [hk] at hrun hs <;> first | exact hs rfl | exact absurd rfl hrun

/-- A type that is read does not go on over the end of a line. -/
theorem typeWithin_joined (hsp : σ.headD false = false) (fuel : Nat) :
    Parses (fun s => Within d σ n declared s ∧ d.Joined i s.pos) (typeWithin fuel) fun ty s =>
      ty.kind ≠ .illegal → d.Joined i s.pos := by
  induction fuel with
  | zero => exact .pure fun s _ hlegal => absurd rfl hlegal
  | succ fuel ih =>
    have hcomposite (close : TokenKind) (f : Ty → Ty) (hclose : endsLine close = false) :
        Parses (fun s => Within d σ n declared s ∧ d.Joined i s.pos) (do
          if (← kind) ≠ close then return .illegal
          advance
          let elem ← typeWithin fuel
          return if elem.kind = .illegal then .illegal else f elem) fun ty s =>
            ty.kind ≠ .illegal → d.Joined i s.pos := by
      refine .lookThen fun found => .ite (fun _ => .pure fun s _ hlegal => absurd rfl hlegal) fun hfound => ?_
      refine Parses.bind (Parses.moveTo (Q := fun _ s => Within d σ n declared s ∧ d.Joined i s.pos)
        State.moves_advance ?_) fun _ => ih.bind fun elem => .pure ?_
      · rintro s ⟨⟨hwithin, hjoined⟩, rfl⟩
        exact ⟨hwithin.advance, hwithin.joined_advance hsp (Decidable.not_not.1 hfound ▸ hclose) hjoined⟩
      · intro s hs hlegal
        split at hlegal
        · exact absurd rfl hlegal
        · next helem => exact hs helem
    refine .lookThen fun first => Parses.bind (Parses.moveTo (Q := fun _ s => Within d σ n declared s ∧
      (endsLine first = false → d.Joined i s.pos)) State.moves_advance ?_) fun _ => ?_
    · rintro s ⟨⟨hwithin, hjoined⟩, rfl⟩
      exact ⟨hwithin.advance, fun hk => hwithin.joined_advance hsp hk hjoined⟩
    split
    · exact .pure fun s hs _ => hs.2 rfl
    · exact .pure fun s hs _ => hs.2 rfl
    · exact .pure fun s hs _ => hs.2 rfl
    · exact .pure fun s hs _ => hs.2 rfl
    · exact (hcomposite .rBracket .array rfl).conseq (fun s hs => ⟨hs.1, hs.2 rfl⟩) fun _ _ => id
    · exact (hcomposite .rCurly .map rfl).conseq (fun s hs => ⟨hs.1, hs.2 rfl⟩) fun _ _ => id
    · exact .pure fun s _ hlegal => absurd rfl hlegal

theorem type_joined (hsp : σ.headD false = false) :
    Parses (fun s => Within d σ n declared s ∧ d.Joined i s.pos) Parsing.type fun ty s =>
      ty.kind ≠ .illegal → d.Joined i s.pos :=
  fun s => typeWithin_joined hsp s.fuel s

/-! ### Parameters -/

/-- No line has ended since an index, or there will be a problem. -/
def Along (d : Draft) (i : Nat) (s : State) : Prop :=
  d.Joined i s.pos ∨ d.Broken i

theorem typedVar_along (declared : List String) (hsp : σ.headD false = false) (hi : i ≤ n) :
    Parses (fun s => Within d σ n declared s ∧ s.cur.kind = .ident ∧ Along d i s) Parsing.typedVar fun _ =>
    Along d i := by
  refine .lookThen fun token => Parses.bind (Parses.moveTo (Q := fun _ s => Within d σ n declared s ∧ Along d i s)
    State.moves_advance ?_) fun _ =>
    Parses.bind (Parses.moveTo (Q := fun _ s => (Within d σ n declared s ∧ d.Joined i s.pos) ∨
      (startsType s.cur.kind → d.Broken i)) State.moves_advance ?_) fun _ => ?_
  · rintro s ⟨⟨hwithin, hk, halong⟩, -⟩
    exact ⟨hwithin.advance, halong.imp_left (hwithin.joined_advance hsp (by rw [hk]; rfl))⟩
  · rintro s ⟨hwithin, hjoined | hbroken⟩
    · by_cases hk : endsLine s.cur.kind
      · refine .inr fun hstarts => ?_
        by_cases hnl : s.cur.kind = .nl
        · refine ⟨s.pos, Nat.le_trans hi hwithin.lower, hjoined, hwithin.cur ▸ hnl, ?_⟩
          rwa [hwithin.advance.cur, hwithin.pos_advance hsp (by rw [hnl]; nofun)] at hstarts
        · have hlast : s.advance.cur.kind = .nl ∨ s.advance.cur.kind = .eof := by
            by_cases heof : s.cur.kind = .eof
            · exact .inr (hwithin.advance_eof heof)
            · have hcomment : s.cur.kind = .comment := by
                cases hk' : s.cur.kind <;> simp_all [endsLine]
              rw [hwithin.cur] at hcomment
              have hlast := d.comment_last s.pos hcomment
              have hnext : d.next s.pos = s.pos + 1 := if_neg fun hws => by
                rcases hlast with h | h <;> cases hws.symm.trans h
              rw [hwithin.advance.cur, hwithin.pos_advance hsp heof, hnext]
              exact hlast
          rcases hlast with h | h <;> rw [h] at hstarts <;> cases hstarts
      · exact .inl ⟨hwithin.advance, hwithin.joined_advance hsp (Bool.eq_false_iff.2 hk) hjoined⟩
    · exact .inr fun _ => hbroken
  refine Parses.bind (Q := fun ty s => ty.kind ≠ .illegal → Along d i s) ?_ fun ty => ?_
  · exact Parses.or ((type_joined hsp).conseq (fun _ => id) fun ty s hs hlegal => .inl (hs hlegal))
      (type_starts.conseq (fun _ => id) fun ty s hs hlegal => .inr (hs hlegal))
  · refine .lookThen fun t => ?_
    refine .ite (fun _ => (Parses.reportedAt (Q := fun _ _ => False)).bind fun _ => .pure fun _ => False.elim)
      fun hlegal => ?_
    exact .pure fun s hs => hs.1 hlegal

/-- After some parameters in the first line of a function or a handler. -/
def Listed (d : Draft) (σ : List Bool) (n i : Nat) (rows : List Row) (words : List Word) (c : Scribe) (vs : List Var)
    (s : State) : Prop :=
  Along d i s ∧ ∃ place, (place = .result ∨ place = .params) ∧
    On d σ n (⟨rows, words ++ params vs, (c.declareAll vs).goTo place⟩ : Page) s

theorem Listed.mono {vs : List Var} (h : Listed d σ n i rows words c vs s) (hm : m ≤ n) :
    Listed d σ m i rows words c vs s := by
  obtain ⟨halong, place, hplace, hon⟩ := h
  exact ⟨halong, place, hplace, hon.mono hm⟩

theorem params_append (vs : List Var) (v : Var) : params (vs ++ [v]) = params vs ++ space :: Layout.typedVar v := by
  simp [params]

/-- Reads a parameter. -/
theorem param_writes (hsp : σ.headD false = false) (hi : i ≤ n) (vs : List Var) :
    Parses (fun s => Listed d σ n i rows words c vs s ∧ s.cur.kind = .ident) Parsing.typedVar fun r =>
      Listed d σ (n + 1) i rows words c (vs ++ [r.1]) := by
  refine (Parses.choose fun place : Place => ?_).conseq (P := fun s => ∃ place, ((place = .result ∨ place = .params) ∧
    On d σ n (⟨rows, words ++ params vs, (c.declareAll vs).goTo place⟩ : Page) s ∧ s.cur.kind = .ident ∧ True) ∧
      (Within d σ n (c.declareAll vs).declared s ∧ s.cur.kind = .ident ∧ Along d i s))
        (fun s ⟨⟨halong, place, hplace, hon⟩, hk⟩ => ⟨place, ⟨hplace, hon, hk, trivial⟩, hon.toWithin, hk, halong⟩)
          fun _ _ => id
  by_cases hplace : place = .result ∨ place = .params
  · have hwrites := typedVar_writes (d := d) (σ := σ) (n := n)
      (p := (⟨rows, words ++ params vs, (c.declareAll vs).goTo place⟩ : Page)) (K := fun _ => True) .head
      (fun name => ([space, ident name], ((c.declareAll vs).declare name).goTo .paramColon))
      (fun name => (c.declareAll vs).declare name) hsp
      (fun name blank => by rcases hplace with rfl | rfl <;> rfl) (fun _ => nofun) (fun _ _ _ _ _ => rfl)
    refine (Parses.and (hwrites.frame (φ := place = .result ∨ place = .params)) (typedVar_along _ hsp hi)).conseq
      (fun _ => id) ?_
    rintro r s ⟨⟨-, -, hon⟩, halong⟩
    refine ⟨halong, .params, .inr rfl, ?_⟩
    rw [params_append, Scribe.declareAll_append]
    simpa [Page.add, Layout.typedVar, Site.after] using hon
  · exact (typedVar_along (d := d) (i := n) [] hsp (Nat.le_refl _)).never.conseq (fun s hs => hplace hs.1.1)
      fun _ _ => False.elim

theorem paramsWithin_writes (rows : List Row) (words : List Word) (hsp : σ.headD false = false) (hi : i ≤ n)
    (fuel : Nat) (done : Array Var) :
    Parses (Listed d σ n i rows words c done.toList) (paramsWithin fuel done) (Listed d σ n i rows words c) := by
  induction fuel generalizing done with
  | zero => exact .pure fun _ => id
  | succ fuel ih =>
    refine .lookThen fun ended => .lookThen fun k => ?_
    dsimp only
    split
    · exact .pure fun s hs => hs.1.1
    · refine Parses.bind (Parses.expectThen .ident (Q := fun _ s => Listed d σ n i rows words c done.toList s ∧
        s.cur.kind = .ident)
        fun s hs hk => ⟨hs.1.1, hk⟩) fun _ => Parses.bind (param_writes hsp hi done.toList) fun r => ?_
      refine (ih (done.push r.1)).conseq (fun s hs => ?_) fun _ _ => id
      rw [Array.toList_push]
      exact hs.mono (Nat.le_succ _)

/-- The loop comes to the end of the line, since each round uses up a token. -/
theorem eventParamsWithin_writes (rows : List Row) (words : List Word) (hsp : σ.headD false = false) (hi : i ≤ n)
    (fuel : Nat) (done : Array Var) :
    Parses (Listed d σ n i rows words c done.toList) (eventParamsWithin fuel done) fun vs s =>
      Listed d σ n i rows words c vs s ∧ (d.tokens.size < fuel + n → s.atLineEnd) := by
  induction fuel generalizing n done with
  | zero =>
    refine .pure fun s hs => ⟨hs, fun hfuel => ?_⟩
    obtain ⟨-, place, -, hon⟩ := hs
    exact absurd (Nat.le_trans hon.lower hon.upper) (by omega)
  | succ fuel ih =>
    refine .lookThen fun ended => .ite (fun hended => .pure fun s hs => ⟨hs.1, fun _ => hs.2.trans hended⟩) fun _ => ?_
    refine Parses.bind (Parses.expectThen .ident (Q := fun _ s => Listed d σ n i rows words c done.toList s ∧
      s.cur.kind = .ident)
      fun s hs hk => ⟨hs.1, hk⟩) fun _ => Parses.bind (param_writes hsp hi done.toList) fun r => ?_
    refine (ih (by omega) (done.push r.1)).conseq (fun s hs => ?_) fun _ s hs =>
      ⟨hs.1.mono (Nat.le_succ _), fun hfuel => hs.2 (by omega)⟩
    rw [Array.toList_push]
    exact hs

/-! ### Signatures -/

theorem same_none_of_kind {ty : Ty} (h : ty.kind ≠ .none) : ty.same .none = false := by
  cases ty with
  | leaf k f => exact beq_eq_false_iff_ne.2 h
  | of => rfl

/-- The parameters in the first line of a function. -/
def lineParams (sig : Signature) : List Var :=
  sig.params ++ sig.variadic.toList

theorem funcHead_eq (sig : Signature) : funcHead sig = sign .func :: space :: ident sig.name ::
    ((if sig.result.same .none then [] else sign .colon :: Layout.type sig.result) ++ params (lineParams sig) ++
      if sig.variadic.isSome then [sign .dot3] else []) := by
  obtain ⟨name, vs, variadic, result⟩ := sig
  cases variadic <;> simp [funcHead, lineParams, params]

/-- The first line of a function, from an index on, is copied up to the index `e`. -/
structure HeadCopied (d : Draft) (i : Nat) (rows : List Row) (declared : List String) (sig : Signature) (e : Nat)
    (c : Scribe) : Prop where
  lower : i < e
  upper : e ≤ d.tokens.size
  ends : endsLine (d.tokenAt e).kind
  along : d.Joined i e ∨ d.Broken i
  finishes : Finishes d.fn ((Scribe.heading declared).declareAll (lineParams sig)) c
  declared : c.declared = ((Scribe.heading declared).declareAll (lineParams sig)).declared
  copied : Copied d e (⟨rows, funcHead sig, c⟩ : Page)

/-- At the end of what has been read of the first line of a function. -/
def HeadDone (d : Draft) (σ : List Bool) (i : Nat) (rows : List Row) (declared : List String) (sig : Signature)
    (s : State) : Prop :=
  Along d i s ∧ ∃ c, Finishes d.fn ((Scribe.heading declared).declareAll (lineParams sig)) c ∧
    c.declared = ((Scribe.heading declared).declareAll (lineParams sig)).declared ∧
      On d σ (i + 1) (⟨rows, funcHead sig, c⟩ : Page) s

theorem endsLine_of_atLineEnd (h : s.atLineEnd) : endsLine s.cur.kind := by
  unfold State.atLineEnd at h
  split at h
  · next hk => rw [hk]; rfl
  · next hk => rw [hk]; rfl
  · next hk => rw [hk]; rfl
  · cases h

theorem atLineEnd_of_endsLine (h : endsLine s.cur.kind) : s.atLineEnd := by
  unfold State.atLineEnd
  cases hk : s.cur.kind <;> first | rfl | (rw [hk] at h; cases h)

theorem signatureEnd_writes (words : List Word) (hsp : σ.headD false = false) (token : Token)
    (name : String) (result : Ty)
    (hwords : words = sign .func :: space :: ident name ::
      (if result.same .none then [] else sign .colon :: Layout.type result)) :
    Gets (Listed d σ (i + 1) i rows words (.heading declared) []) (signatureEnd token name result) fun r s =>
      r.2.name = name ∧ (∃ declared', Within d σ i declared' s) ∧ ∃ e c, HeadCopied d i rows declared r.2 e c := by
  have hend (sig : Signature) (hname : sig.name = name) : Gets (HeadDone d σ i rows declared sig) (do
        expectLineEnd
        nextLine
        return (token, sig)) fun r s =>
          r.2.name = name ∧ (∃ declared', Within d σ i declared' s) ∧ ∃ e c, HeadCopied d i rows declared r.2 e c := by
    refine .liftBind (Parses.expectEnd (Q := fun _ s => s.atLineEnd ∧ HeadDone d σ i rows declared sig s)
      fun s hs hended => ⟨hended, hs⟩) fun _ => ?_
    refine .moveTo (Q := fun s => (∃ declared', Within d σ i declared' s) ∧ ∃ e c, HeadCopied d i rows declared sig e c)
      State.moves_nextLine ?_ (.pure fun s hs => ⟨hname, hs⟩)
    rintro s ⟨hended, halong, c', hfin, hdeclared, hon⟩
    have hwhole := On.finish (p := (⟨rows, [], c'⟩ : Page)) _ hon hfin hdeclared hended
    refine ⟨⟨_, (hwhole.mono (Nat.le_succ i)).toWithin⟩, s.pos, c', hon.lower, hon.upper, ?_, halong, hfin,
      hdeclared, hon.copied⟩
    rw [← hon.cur]
    exact endsLine_of_atLineEnd hended
  refine .state fun t => .liftBind ((paramsWithin_writes (c := Scribe.heading declared) (i := i) (n := i + 1)
    rows words hsp (Nat.le_succ i) t.fuel #[]).conseq (fun s hs => hs.1) fun _ _ => id) fun params =>
    .lookThen fun k => ?_
  split
  · next hk =>
    obtain ⟨c, hc⟩ : ∃ c, c = ((Scribe.heading declared).declareAll params).goTo .finish := ⟨_, rfl⟩
    refine .moveTo (Q := fun s => Along d i s ∧
      On d σ (i + 1) (⟨rows, words ++ Layout.params params ++ [sign .dot3], c⟩ : Page) s) State.moves_advance ?_ ?_
    · rintro s ⟨⟨halong, place, hplace, hon⟩, rfl⟩
      have hstep := hon.step (by rw [hk]; nofun) (by rw [hk]; nofun) (w := [sign .dot3]) (c := c)
        (by rw [hk, hc]; rcases hplace with rfl | rfl <;> rfl) (by rw [hc]; nofun)
      refine ⟨halong.imp_left (hon.joined_advance hsp (by rw [hk]; rfl)), ?_⟩
      exact hstep.toOn.mono (Nat.le_succ _)
    split
    · next v =>
      refine (hend ⟨name, [], some v, result⟩ rfl).conseq (fun s hs => ⟨hs.1, c, ?_, ?_, ?_⟩) fun _ _ => id
      · subst hc
        exact ⟨rfl, fun _ _ _ _ => rfl⟩
      · subst hc
        rfl
      · rw [funcHead_eq]
        simpa [hwords, lineParams] using hs.2
    · exact .liftBind (Parses.reportedHere (Q := fun _ _ => False)) fun _ =>
        (hend ⟨name, params, none, result⟩ rfl).never
  · refine (hend ⟨name, params, none, result⟩ rfl).conseq ?_ fun _ _ => id
    rintro s ⟨⟨halong, place, hplace, hon⟩, -⟩
    refine ⟨halong, _, .params _ hplace, ?_, ?_⟩
    · simp [lineParams, Scribe.goTo]
    · rw [funcHead_eq]
      simpa [hwords, lineParams] using hon

/-- Reads a signature, from its keyword on. -/
theorem signature_writes (rows : List Row) (declared : List String) (hsp : σ.headD false = false)
    (hfn : d.fn (d.tokenAt (d.next i)).literal) :
    Gets (fun s => s.pos = i ∧ s.cur.kind = .func ∧ On d σ i (blankPage rows 0 false declared) s) signature fun r s =>
      ((d.tokenAt (d.next i)).kind = .ident ∧ (d.tokenAt (d.next i)).literal = r.2.name) ∧
        (∃ declared', Within d σ i declared' s) ∧ ∃ e c, HeadCopied d i rows declared r.2 e c := by
  obtain ⟨name, hname⟩ : ∃ name, name = (d.tokenAt (d.next i)).literal := ⟨_, rfl⟩
  rw [← hname] at hfn ⊢
  refine .lookThen fun token => .moveTo (Q := fun s => s.pos = d.next i ∧ d.Joined i s.pos ∧
    On d σ (i + 1) (⟨rows, [sign .func], (Scribe.heading declared).goTo .funcName⟩ : Page) s) State.moves_advance ?_ ?_
  · rintro s ⟨⟨hpos, hk, hon⟩, -⟩
    subst hpos
    refine ⟨hon.pos_advance hsp (by simp [hk]), ?_, ?_⟩
    · exact hon.joined_advance hsp (by rw [hk]; rfl) fun k hle hlt => absurd (Nat.lt_of_le_of_lt hle hlt)
        (Nat.lt_irrefl _)
    · have hstep := hon.step (by simp [hk]) (by simp [hk]) (w := [sign .func])
        (c := (Scribe.heading declared).goTo .funcName) (by rw [hk]; rfl) (by simp)
      exact hstep.toOn
  refine Gets.bind (Q := fun _ s => s.cur.kind = .ident ∧ s.pos = d.next i ∧ d.Joined i s.pos ∧
    On d σ (i + 1) (⟨rows, [sign .func], (Scribe.heading declared).goTo .funcName⟩ : Page) s)
    (.orNextLine (.require _ fun s hs hk => ⟨hk, hs⟩)) fun _ => .lookThen fun nameToken => ?_
  obtain ⟨lead, hlead⟩ : ∃ lead, lead = [sign .func, space, ident nameToken.literal] := ⟨_, rfl⟩
  refine .moveTo (Q := fun s => ((d.tokenAt (d.next i)).kind = .ident ∧ name = nameToken.literal) ∧ d.Joined i s.pos ∧
    On d σ (i + 1) (⟨rows, lead, (Scribe.heading declared).goTo .result⟩ : Page) s) State.moves_advance ?_ ?_
  · rintro s ⟨⟨hk, hpos, hjoined, hon⟩, rfl⟩
    have hcur : s.cur = d.tokenAt (d.next i) := by rw [hon.cur, hpos]
    refine ⟨⟨hcur ▸ hk, by rw [hname, hcur]⟩, hon.joined_advance hsp (by rw [hk]; rfl) hjoined, ?_⟩
    rw [← hcur] at hname
    have hstroke : stroke d.fn ((Scribe.heading declared).goTo .funcName) .ident s.cur.literal s.afterBlank =
        some ([space, ident s.cur.literal], (Scribe.heading declared).goTo .result) := by
      rw [← hname]
      simp [stroke, hfn]
    have hstep := hon.step (by simp [hk]) (by simp [hk]) (w := [space, ident s.cur.literal])
      (c := (Scribe.heading declared).goTo .result) (by rw [hk]; exact hstroke) (by simp)
    simpa [hlead, Page.add] using hstep.toOn.mono (Nat.le_succ _)
  -- the parameters are read alike after a result type and without one
  have hend (result : Ty) (words : List Word)
      (hwords : words = lead ++ (if result.same .none then [] else sign .colon :: Layout.type result)) :
      Gets (fun s => ((d.tokenAt (d.next i)).kind = .ident ∧ name = nameToken.literal) ∧
        Listed d σ (i + 1) i rows words (.heading declared) [] s)
        (signatureEnd token nameToken.literal result) fun r s =>
          ((d.tokenAt (d.next i)).kind = .ident ∧ name = r.2.name) ∧
            (∃ declared', Within d σ i declared' s) ∧ ∃ e c, HeadCopied d i rows declared r.2 e c := by
    refine Gets.conseq ((signatureEnd_writes words hsp token nameToken.literal result
      (by rw [hwords, hlead]; rfl)).frame
      (φ := (d.tokenAt (d.next i)).kind = .ident ∧ name = nameToken.literal)) (fun _ => id) ?_
    rintro r s ⟨⟨hkind, rfl⟩, hr, hwithin, hcopied⟩
    exact ⟨⟨hkind, hr.symm⟩, hwithin, hcopied⟩
  refine .lookThen fun k => ?_
  dsimp only
  split
  · next hk =>
    refine .moveTo (Q := fun s => ((d.tokenAt (d.next i)).kind = .ident ∧ name = nameToken.literal) ∧ d.Joined i s.pos ∧
      On d σ (i + 1) (⟨rows, lead ++ [sign .colon], (Scribe.heading declared).goTo (.type .head)⟩ : Page) s)
      State.moves_advance ?_ ?_
    · rintro s ⟨⟨hφ, hjoined, hon⟩, rfl⟩
      have hstep := hon.step (by simp [hk]) (by simp [hk]) (w := [sign .colon])
        (c := (Scribe.heading declared).goTo (.type .head)) (by rw [hk]; rfl) (by simp)
      exact ⟨hφ, hon.joined_advance hsp (by rw [hk]; rfl) hjoined, hstep.toOn.mono (Nat.le_succ _)⟩
    refine .liftBind (((Parses.and (type_writes
      (p := (⟨rows, lead ++ [sign .colon], (Scribe.heading declared).goTo (.type .head)⟩ : Page)) .head rfl)
      (type_joined (i := i) hsp)).frame
      (φ := (d.tokenAt (d.next i)).kind = .ident ∧ name = nameToken.literal)).conseq
        (fun s hs => ⟨hs.1, hs.2.2, hs.2.2.toWithin, hs.2.1⟩) fun _ _ => id) fun result => ?_
    split
    · exact .lookThen fun _ => .liftBind (Parses.reportedAt (Q := fun _ _ => False)) fun _ => (hend result _ rfl).never
    · next hlegal =>
      refine (hend result _ rfl).conseq ?_ fun _ _ => id
      rintro s ⟨hφ, ⟨-, hon⟩, hjoined⟩
      obtain ⟨hnone, hon⟩ := hon hlegal
      refine ⟨hφ, .inl (hjoined hlegal), .params, .inr rfl, ?_⟩
      rw [same_none_of_kind hnone, if_neg Bool.false_ne_true]
      simpa [params, Scribe.declareAll, Page.add, Site.after] using hon
  · refine (hend .none lead (by simp [Ty.none])).conseq ?_ fun _ _ => id
    rintro s ⟨⟨hφ, hjoined, hon⟩, -⟩
    exact ⟨hφ, .inl hjoined, .result, .inl rfl, by simpa [params, Scribe.declareAll] using hon⟩

end TinyScript.Parsing
