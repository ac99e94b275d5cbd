import TinyScript.Proofs.Parsing.Programs
import TinyScript.Proofs.Scribing.Programs
import TinyScript.Proofs.Scribing.Recopying
import TinyScript.Proofs.Token.Numerals

/-!
# Copies of sources

The rows of a program that is read from a source are drawn by copying the source.
-/

namespace TinyScript

/-- The numbers in a source are read again from their texts, which have as few digits as that takes. An infinite
number has no such text. -/
def ReadsNumbersBack (source : String) : Prop :=
  ∀ t ∈ (Token.scan source).toList, t.kind = .numLit → ∀ x ∈ Decimal.readFloat? t.literal, x.isFinite →
    Decimal.readFloat? (Number.text x) = some x

instance (source : String) : Decidable (ReadsNumbersBack source) :=
  inferInstanceAs (Decidable (∀ t ∈ (Token.scan source).toList, t.kind = .numLit → ∀ x ∈ Decimal.readFloat? t.literal,
    x.isFinite → Decimal.readFloat? (Number.text x) = some x))

end TinyScript

namespace TinyScript.Parsing
open Layout Word

/-! ### Drafts of sources -/

/-- A source without illegal tokens. -/
def Legal (source : String) : Prop :=
  ∀ t ∈ (Token.scan source).toList, t.kind ≠ .illegal

section
variable {source : String} {prelude : Prelude} {p : Program}

theorem legal_of_clean (h : (State.start source prelude).Clean) : Legal source := by
  intro t ht hk
  have hempty : ((Token.scan source).filter (·.kind == .illegal)).map
      (fun t => (⟨illegalProblem t.literal, t⟩ : Diagnostic)) = #[] := h
  have hmem : t ∈ (Token.scan source).filter (·.kind == .illegal) :=
    Array.mem_filter.2 ⟨Array.mem_toList_iff.1 ht, beq_iff_eq.2 hk⟩
  rw [Array.map_eq_empty_iff] at hempty
  rw [hempty] at hmem
  exact absurd hmem (Array.not_mem_empty t)

theorem legal_of_parse (h : Program.parse source prelude = .ok p) : Legal source :=
  legal_of_clean (program_parses.began (Program.clean_of_parse h).1)

theorem start_tokens (h : Legal source) : (State.start source prelude).tokens = Token.scan source :=
  Array.filter_eq_self.2 fun t ht => bne_iff_ne.2 (h t (Array.mem_toList_iff.2 ht))

theorem beside_of_lt (h : Legal source) {i : Nat} (hi : i + 1 < (State.start source prelude).tokens.size) :
    ((State.start source prelude).tokenAt i).Beside ((State.start source prelude).tokenAt (i + 1)) := by
  have hchain := (Token.scan_cut source).beside h
  rw [start_tokens h] at hi
  rw [State.tokenAt, State.tokenAt, start_tokens h, Array.getElem?_eq_getElem hi, Array.getElem?_eq_getElem (by omega)]
  exact List.isChain_iff_getElem.1 hchain i hi

/-- The last token is the end of input. -/
theorem lt_of_kind {i : Nat} (hk : ((State.start source prelude).tokenAt i).kind ≠ .eof) :
    i + 1 < (State.start source prelude).tokens.size := by
  obtain ⟨last, hlast⟩ := back?_start_tokens source prelude
  have heof : (State.start source prelude).eof.kind = .eof := (start_inRange source prelude).eof
  refine Nat.lt_of_not_le fun hle => hk ?_
  rw [State.tokenAt]
  rcases Nat.lt_or_eq_of_le hle with hbeyond | hend
  · rw [Array.getElem?_eq_none (Nat.le_of_lt_succ hbeyond), Option.getD_none]
    exact heof
  · rw [Array.back?_eq_getElem?, hend, Nat.add_sub_cancel] at hlast
    rw [hlast]
    rfl

/-- Each token stands before the next one in a source, and the end of input is the last one. -/
structure State.Linked (s : State) : Prop where
  eof : s.eof.kind = .eof
  beside : ∀ i, (s.tokenAt i).kind ≠ .eof → (s.tokenAt i).Beside (s.tokenAt (i + 1))
  last : ∀ i, (s.tokenAt i).kind = .eof → (s.tokenAt (i + 1)).kind = .eof

theorem start_linked (h : Legal source) : (State.start source prelude).Linked where
  eof := (start_inRange source prelude).eof
  beside _ hk := beside_of_lt h (lt_of_kind hk)
  last _ hk := Decidable.byContradiction fun hnext => (beside_of_lt h (Nat.lt_of_succ_lt (lt_of_kind hnext))).kind hk

/-- The draft of the tokens of a parser at its start. -/
def Draft.ofState (s : State) (h : s.Linked) : Draft where
  tokens := s.tokens
  eof := s.eof
  eof_kind := h.eof
  eof_last := h.last
  blank_last i hk := (h.beside i (by rw [State.tokenAt, hk]; nofun)).ws hk
  comment_last i hk := (h.beside i (by rw [State.tokenAt, hk]; nofun)).comment hk
  prelude := s.prelude
  known := []
  bodies := []
  fn _ := false
  start := 0
  first := {}

theorem tokenAt_ofState {s : State} (h : s.Linked) (i : Nat) : (Draft.ofState s h).tokenAt i = s.tokenAt i :=
  rfl

theorem faithful_of_mem (h : Legal source) (hnumbers : ReadsNumbersBack source) {t : Token}
    (ht : t ∈ (Token.scan source).toList) (hws : t.kind ≠ .ws) (heof : t.kind ≠ .eof) : Faithful t.kind t.literal := by
  have hspells := (Token.scan_cut source).spells t ht (h t ht) hws heof
  refine ⟨.inr hspells, fun hnum x hx => ?_⟩
  exact (Number.text_of_readFloat? (hnum ▸ hspells) hx).imp id fun ⟨hfinite, htext⟩ =>
    ⟨htext, hnumbers t ht hnum x hx hfinite⟩

theorem tokenAt_mem (h : Legal source) {i : Nat} (hk : ((State.start source prelude).tokenAt i).kind ≠ .eof) :
    (State.start source prelude).tokenAt i ∈ (Token.scan source).toList := by
  have hlt := Nat.lt_of_succ_lt (lt_of_kind hk)
  rw [start_tokens h] at hlt
  rw [State.tokenAt, start_tokens h, Array.getElem?_eq_getElem hlt]
  exact Array.getElem_mem_toList hlt

theorem sourced_start (h : Legal source) (hnumbers : ReadsNumbersBack source) :
    (Draft.ofState (State.start source prelude) (start_linked h)).Sourced := by
  refine ⟨fun i hws => ?_, (start_linked h : (State.start source prelude).Linked).beside⟩
  rw [tokenAt_ofState] at hws ⊢
  by_cases heof : ((State.start source prelude).tokenAt i).kind = .eof
  · rw [heof]
    exact ⟨.inl rfl, nofun⟩
  · exact faithful_of_mem h hnumbers (tokenAt_mem h heof) hws heof

/-- Before the program is read, only the functions of the prelude are known. -/
theorem signedAt_ofState {s : State} (h : s.Linked) (hspacing : s.spacing = [false])
    (hstart : s.outline = ⟨s.prelude, s.prelude.funcs, #[], #[], []⟩) : SignedAt (Draft.ofState s h) [] s :=
  ⟨⟨s.prelude, s.prelude.funcs, #[], #[], []⟩, ⟨rfl, rfl, rfl⟩,
    ⟨fun _ hi => absurd hi List.not_mem_nil, fun _ hi => absurd hi List.not_mem_nil, fun _ _ => rfl⟩,
    ⟨rfl, rfl, hspacing, hstart⟩⟩

/-- A program that is read without problems is copied as its rows. -/
theorem copied_of_parse (h : Program.parse source prelude = .ok p) :
    ∃ s, ProgramCopied (Draft.ofState (State.start source prelude) (start_linked (legal_of_parse h))) p s := by
  obtain ⟨hclean, rfl⟩ := Program.clean_of_parse h
  exact ⟨_, (program_writes _ (fun _ => signedAt_ofState _ rfl rfl) hclean).2⟩

end

end TinyScript.Parsing
