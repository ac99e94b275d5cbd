import TinyScript.Proofs.Binding.Statements
import TinyScript.Proofs.Parsing.Signatures

/-!
# Functions that are known by name

The signatures of all functions are read before the program is. If there are no problems then, the name
of every function is known, and no two functions share one (`SignedFrom`), so that no function is dropped
when its body has been read.
-/

namespace TinyScript.Parsing

/-- The token that follows the one at an index. -/
def State.nameAt (s : State) (q : Nat) : Token :=
  { s with pos := q }.advance.cur

variable {σ s t : State} {q : Nat} {sig : Signature} {done : List Nat}

theorem State.cur_advance_congr (htokens : s.tokens = t.tokens) (heof : s.eof = t.eof)
    (hspacing : s.spacing = t.spacing) (hpos : s.pos = t.pos) : s.advance.cur = t.advance.cur := by
  grind [State.advance, State.advanceOne, State.skipBlank, State.isSpaced, State.cur, State.tokenAt]

section
variable {P : State → Prop}

/-- A token that is expected is there. -/
theorem expect_kind (expected : TokenKind) :
    Parses P (expect expected) fun b s => b = true ∧ P s ∧ s.cur.kind = expected := by
  refine Parses.look.bind fun found => ?_
  split
  · next hfound => exact .pure fun s hs => ⟨rfl, hs.1, hs.2.trans hfound⟩
  · exact .reportThen (.reportHere _) (.pure fun _ => False.elim)

theorem require_kind (expected : TokenKind) :
    Tries P (require expected) fun _ s => P s ∧ s.cur.kind = expected := by
  refine (Tries.lift (expect_kind expected)).bind fun b => ?_
  split
  · exact .pure fun _ => And.right
  · next hb => exact .failure fun s hs => hb hs.1

variable [Stable P]

theorem paramsWithin_parses (fuel : Nat) (done : Array Var) :
    Parses P (paramsWithin fuel done) fun _ => P := by
  induction fuel generalizing done with
  | zero => exact .pure fun _ => id
  | succ fuel ih =>
    refine Parses.peek.bind fun ended => Parses.peek.bind fun k => ?_
    dsimp only
    split
    · exact .pure fun _ => id
    · exact (expect_parses _).bind fun _ => typedVar_parses.bind fun r =>
        (ih (done.push r.1)).pre fun _ => And.right

theorem signatureEnd_tries (token : Token) (name : String) (result : Ty) :
    Tries P (signatureEnd token name result) fun r s => r.2.name = name ∧ P s := by
  have hend (params : List Var) (variadic : Option Var) : Tries P (do
      expectLineEnd
      nextLine
      return (token, (⟨name, params, variadic, result⟩ : Signature))) fun r s => r.2.name = name ∧ P s :=
    (Tries.lift Parses.expectLineEnd).bind fun _ => (Tries.move State.alike_nextLine).bind fun _ =>
      .pure fun _ hs => ⟨rfl, hs⟩
  refine Tries.get.bind fun s => (Tries.lift (paramsWithin_parses s.fuel #[])).bind fun params =>
    Tries.peek.bind fun k => ?_
  dsimp only
  split
  · refine (Tries.move State.alike_advance).bind fun _ => ?_
    split
    · exact hend _ _
    · exact (Tries.lift (Parses.reportHere _)).bind fun _ => hend _ _
  · exact hend _ _

end

theorem advance_nameAt : Parses (fun s => Reading σ [] s ∧ s.pos = q) advance fun _ s =>
    Reading σ [] s ∧ s.cur = σ.nameAt q :=
  .step (fun s => s.alike_advance.problems) fun s hs => ⟨Stable.of_alike s.alike_advance hs.1,
    State.cur_advance_congr hs.1.tokens hs.1.eof hs.1.spacing hs.2⟩

theorem signature_tries : Tries (fun s => Reading σ [] s ∧ s.pos = q) signature fun r s =>
    (r.2.name = (σ.nameAt q).literal ∧ (σ.nameAt q).kind = .ident) ∧ Reading σ [] s := by
  have hrest (token nameToken : Token) : Tries (fun s => (nameToken.literal = (σ.nameAt q).literal ∧
      (σ.nameAt q).kind = .ident) ∧ Reading σ [] s) (do
      advance
      let mut result := Ty.none
      if (← kind) = .colon then
        advance
        result ← type
        if result.kind = .illegal then
          reportAt token (.badResultType (← cur))
      signatureEnd token nameToken.literal result) fun r s =>
        (r.2.name = (σ.nameAt q).literal ∧ (σ.nameAt q).kind = .ident) ∧ Reading σ [] s := by
    have hend (result : Ty) : Tries (fun s => (nameToken.literal = (σ.nameAt q).literal ∧
        (σ.nameAt q).kind = .ident) ∧ Reading σ [] s) (signatureEnd token nameToken.literal result) fun r s =>
          (r.2.name = (σ.nameAt q).literal ∧ (σ.nameAt q).kind = .ident) ∧ Reading σ [] s :=
      (signatureEnd_tries token nameToken.literal result).post
        fun r s hs => ⟨⟨hs.1.trans hs.2.1.1, hs.2.1.2⟩, hs.2.2⟩
    refine (Tries.move State.alike_advance).bind fun _ => Tries.peek.bind fun k => ?_
    dsimp only
    split
    · refine (Tries.move State.alike_advance).bind fun _ => (Tries.lift type_parses).bind fun result => ?_
      split
      · exact Tries.peek.bind fun _ => (Tries.lift (Parses.reportAt _ _)).bind fun _ => hend _
      · exact hend _
    · exact hend _
  refine Tries.peek.bind fun token => (Tries.lift advance_nameAt).bind fun _ =>
    (Tries.orNextLine (require_kind _)).bind fun _ =>
    (Tries.lift (Parses.look (f := State.cur))).bind fun nameToken =>
    (hrest token nameToken).pre fun s hs => ?_
  obtain ⟨⟨⟨hs, hcur⟩, hident⟩, rfl⟩ := hs
  rw [hcur] at hident ⊢
  exact ⟨⟨rfl, hident⟩, hs⟩

/-- The name of a function is not that of another one. -/
theorem addSignature_binds (token : Token) : Parses (Reading σ []) (addSignature token sig) fun _ s =>
    ¬ σ.isFunc sig.name ∧ Reading { σ with funcs := sig :: σ.funcs } [] s := by
  have hadd : State.IsUpdate fun s => { s with funcs := sig :: s.funcs } :=
    ⟨fun _ => rfl, fun _ => rfl, fun _ => rfl, fun _ => rfl, fun _ => rfl⟩
  have hend : Parses (fun s => ¬ σ.isFunc sig.name ∧ Reading σ [] s)
      (modify fun s => { s with funcs := sig :: s.funcs }) fun _ s =>
        ¬ σ.isFunc sig.name ∧ Reading { σ with funcs := sig :: σ.funcs } [] s :=
    (Parses.become hadd).frame
  have hnamed (t : State) : Parses (fun s => t.funcs = σ.funcs ∧ Reading σ [] s) (do
      if (t.prelude.func? sig.name).isSome then
        reportAt token (.overridesFunction sig.name)
      else if t.isFunc sig.name then
        reportAt token (.functionRedeclared sig.name)
      modify fun s => { s with funcs := sig :: s.funcs }) fun _ s =>
        ¬ σ.isFunc sig.name ∧ Reading { σ with funcs := sig :: σ.funcs } [] s := by
    dsimp only
    split
    · exact .reportThen (.reportAt _ _) hend
    split
    · exact .reportThen (.reportAt _ _) hend
    · next hfunc =>
      refine hend.pre fun s hs => ⟨fun h => hfunc ?_, hs.2⟩
      rwa [State.isFunc, State.func?, hs.1]
  refine Parses.bind (Q := fun t s => t.funcs = σ.funcs ∧ Reading σ [] s)
    (.state fun s hs => ⟨hs.funcs, hs⟩) fun t => ?_
  dsimp only
  split
  · exact .reportThen (.reportAt _ _) (hnamed t)
  · exact hnamed t

/-- Each function at the places is known by a name of its own. -/
structure State.Named (s : State) (positions : List Nat) : Prop where
  ident : ∀ q ∈ positions, (s.nameAt q).kind = .ident
  known : ∀ q ∈ positions, s.isFunc (s.nameAt q).literal
  distinct : positions.Pairwise fun q r => (s.nameAt q).literal ≠ (s.nameAt r).literal

/-- The signatures at the places `done` have been read since `σ`. -/
structure SignedFrom (σ : State) (done : List Nat) (s : State) : Prop where
  inRange : s.InRange
  site : s.site = ({ σ with funcs := s.funcs } : State).site
  named : s.Named done
  kept : ∀ name, σ.isFunc name → s.isFunc name

theorem isFunc_cons (name : String) :
    ({ s with funcs := sig :: s.funcs } : State).isFunc name = (sig.name == name || s.isFunc name) := by
  by_cases h : sig.name = name <;> simp [State.isFunc, State.func?, h]

theorem SignedFrom.add (h : SignedFrom σ done t) (hname : sig.name = (t.nameAt q).literal)
    (hident : (t.nameAt q).kind = .ident) (hnew : ¬ t.isFunc sig.name)
    (hs : Reading { t with funcs := sig :: t.funcs } [] s) : SignedFrom σ (done ++ [q]) s := by
  have hfunc (name : String) : s.isFunc name = (sig.name == name || t.isFunc name) := by
    rw [← isFunc_cons, State.isFunc, State.func?, hs.funcs]
    rfl
  have hat (r : Nat) : s.nameAt r = t.nameAt r := State.cur_advance_congr hs.tokens hs.eof hs.spacing rfl
  refine ⟨hs.inRange, ?_, ⟨?_, ?_, ?_⟩, fun name hname => ?_⟩
  · rw [hs.site, hs.funcs]
    exact congrArg (fun u : State => { u with funcs := sig :: t.funcs }) h.site
  · simp only [hat]
    exact List.forall_mem_append.2 ⟨h.named.ident, List.forall_mem_singleton.2 hident⟩
  · simp only [hat, hfunc]
    refine List.forall_mem_append.2 ⟨fun r hr => ?_, List.forall_mem_singleton.2 ?_⟩
    · rw [h.named.known r hr, Bool.or_true]
    · rw [hname, beq_self_eq_true, Bool.true_or]
  · simp only [hat]
    refine List.pairwise_append.2 ⟨h.named.distinct, List.pairwise_singleton _ _, fun r hr => ?_⟩
    refine List.forall_mem_singleton.2 fun heq => hnew ?_
    rw [hname, ← heq]
    exact h.named.known r hr
  · rw [hfunc, h.kept name hname, Bool.or_true]

/-- What is known of the place at which a parser starts can be used for the state it starts in. -/
theorem Parses.fromState {α : Type} {P : State → Prop} {m : Parse α} {Q : α → State → Prop}
    (h : ∀ t, Parses (fun s => P t ∧ s = t) m Q) : Parses P m Q :=
  fun s hs => h s s fun hclean => ⟨hs hclean, rfl⟩

theorem signatureAt_signs (hq : q < σ.tokens.size) :
    Parses (SignedFrom σ done) (signatureAt q) fun _ => SignedFrom σ (done ++ [q]) := by
  -- the signature is read from `t` on, and what was known there is carried along until its name is added
  refine .fromState fun t => Parses.bind (Q := fun _ s => SignedFrom σ done t ∧ Reading t [] s ∧ s.pos = q)
    (.step (fun _ => rfl) fun s hs => ?_) fun _ => Parses.bind (Parses.frame signature_tries) fun r => ?_
  · obtain ⟨ht, rfl⟩ := hs
    have htokens : s.tokens = σ.tokens := (congrArg State.tokens ht.site :)
    exact ⟨ht, ⟨⟨htokens ▸ Nat.le_of_lt hq, ht.inRange.eof⟩, rfl, nofun⟩, rfl⟩
  · cases r with
    | none => exact .pure fun s hs => by obtain ⟨-, r, hr, -⟩ := hs; cases hr
    | some r =>
      obtain ⟨token, sig⟩ := r
      refine ((addSignature_binds (σ := t) token).frame (φ := SignedFrom σ done t ∧
        sig.name = (t.nameAt q).literal ∧ (t.nameAt q).kind = .ident)).conseq (fun s hs => ?_) fun _ s hs => ?_
      · obtain ⟨ht, r, hr, hname, hs⟩ := hs
        cases hr
        exact ⟨⟨ht, hname⟩, hs⟩
      · obtain ⟨⟨ht, hname, hident⟩, hnew, hs⟩ := hs
        exact ht.add hname hident hnew hs

theorem signatures_sign (positions : List Nat) (hpositions : ∀ q ∈ positions, q < σ.tokens.size) :
    Parses (SignedFrom σ done) (positions.forM signatureAt) fun _ => SignedFrom σ (done ++ positions) := by
  induction positions generalizing done with
  | nil => exact .pure fun s hs => by rwa [List.append_nil]
  | cons q positions ih =>
    obtain ⟨hq, hrest⟩ := List.forall_mem_cons.1 hpositions
    rw [List.append_cons]
    exact (signatureAt_signs hq).bind fun _ => ih hrest

end TinyScript.Parsing
