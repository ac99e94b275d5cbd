import TinyScript.Eval.Builtin
import TinyScript.Proofs.Access.Elements
import TinyScript.Proofs.Counting

/-!
# Searching in text

A text is found where it first occurs (`Text.find?_eq_some_iff`), and not found if it does not occur
(`Text.find?_eq_none_iff`). Splitting and replacing are scans of their own, and both go from one occurrence
to the next (`Text.split_eq`, `Text.replace_eq`): the text up to the first occurrence, and then the same with
what follows the occurrence. An induction over occurrences (`Text.occurrence_induction`) says what the pieces
are when they are joined again.
-/

namespace TinyScript

namespace Text
variable {part sep old new cs rest done piece : List Char} {i skip : Nat}

theorem after?_eq_some_iff : after? part cs = some rest ↔ part ++ rest = cs := by
  induction part generalizing cs with
  | nil =>
    show some cs = some rest ↔ rest = cs
    rw [Option.some_inj, eq_comm]
  | cons p ps ih =>
    cases cs with
    | nil => exact iff_of_false nofun nofun
    | cons d cs =>
      rw [after?, List.cons_append, List.cons.injEq, ← ih]
      split
      · next h => exact (and_iff_right h).symm
      · next h => exact iff_of_false nofun fun h' => h h'.1

theorem after?_isSome_iff : (after? part cs).isSome ↔ part <+: cs := by
  rw [Option.isSome_iff_exists]
  exact exists_congr fun _ => after?_eq_some_iff

/-! ### The first occurrence -/

theorem find?_cons_here {ch : Char} (h : part <+: ch :: cs) : find? part (ch :: cs) = some 0 :=
  if_pos (after?_isSome_iff.2 h)

theorem find?_cons_skip {ch : Char} (h : ¬ part <+: ch :: cs) :
    find? part (ch :: cs) = (find? part cs).map (· + 1) :=
  if_neg (after?_isSome_iff.not.2 h)

theorem find?_nil : find? part [] = if part = [] then some 0 else none := by
  cases part <;> rfl

theorem find?_eq_none_iff : find? part cs = none ↔ ¬ part <:+: cs := by
  induction cs with
  | nil =>
    rw [find?_nil, List.infix_nil]
    split
    · next h => exact iff_of_false nofun (not_not_intro h)
    · next h => exact iff_of_true rfl h
  | cons ch cs ih =>
    rw [List.infix_cons_iff, not_or, ← ih]
    by_cases h : part <+: ch :: cs
    · rw [find?_cons_here h]
      exact iff_of_false nofun fun h' => h'.1 h
    · rw [find?_cons_skip h, Option.map_eq_none_iff]
      exact (and_iff_right h).symm

/-- What is found occurs there, and at no smaller place. -/
theorem prefix_of_find? (h : find? part cs = some i) :
    part <+: cs.drop i ∧ ∀ j < i, ¬ part <+: cs.drop j := by
  induction cs generalizing i with
  | nil =>
    rw [find?_nil] at h
    split at h
    · next hpart =>
      cases h
      exact ⟨hpart ▸ List.nil_prefix, nofun⟩
    · nomatch h
  | cons ch cs ih =>
    by_cases hpart : part <+: ch :: cs
    · rw [find?_cons_here hpart] at h
      cases h
      exact ⟨hpart, nofun⟩
    · rw [find?_cons_skip hpart] at h
      obtain ⟨i, hi, rfl⟩ := Option.map_eq_some_iff.1 h
      obtain ⟨hfound, hleft⟩ := ih hi
      refine ⟨hfound, fun j hj => ?_⟩
      cases j with
      | zero => exact hpart
      | succ j => exact hleft j (Nat.lt_of_succ_lt_succ hj)

theorem end_le_of_find? (h : find? part cs = some i) : i + part.length ≤ cs.length := by
  obtain ⟨hfound, hleft⟩ := prefix_of_find? h
  have hlength := hfound.length_le
  rw [List.length_drop] at hlength
  by_cases hpart : part = []
  · -- the empty text occurs at the first place
    have hi : i = 0 := Nat.eq_zero_of_not_pos fun hpos => hleft 0 hpos (hpart ▸ List.nil_prefix)
    omega
  · have := List.length_pos_iff.2 hpart
    omega

/-- The text before an occurrence, the occurrence, and the text behind it. -/
theorem parts_of_find? (h : find? part cs = some i) :
    cs.take i ++ part ++ cs.drop (i + part.length) = cs := by
  obtain ⟨rest, hrest⟩ := (prefix_of_find? h).1
  have hbehind : cs.drop (i + part.length) = rest := by
    rw [← List.drop_drop, ← hrest, List.drop_left]
  rw [hbehind, List.append_assoc, hrest, List.take_append_drop]

/-- To say something about a text, say it about a text without the part, and go over one occurrence. -/
theorem occurrence_induction {motive : List Char → Prop} (hpart : part ≠ [])
    (hnone : ∀ cs, find? part cs = none → motive cs)
    (hsome : ∀ cs i, find? part cs = some i → motive (cs.drop (i + part.length)) → motive cs)
    (cs : List Char) : motive cs := by
  cases h : find? part cs with
  | none => exact hnone cs h
  | some i =>
    have hlength : 0 < part.length := List.length_pos_iff.2 hpart
    have hdecreases : (cs.drop (i + part.length)).length < cs.length := by
      have := end_le_of_find? h
      rw [List.length_drop]
      omega
    exact hsome cs i h (occurrence_induction hpart hnone hsome _)
  termination_by cs.length

/-! ### The scans -/

theorem splitFrom_skip : splitFrom sep skip piece cs = splitFrom sep 0 piece (cs.drop skip) := by
  induction skip generalizing cs with
  | zero => rfl
  | succ skip ih =>
    cases cs with
    | nil => rfl
    | cons ch cs => exact ih

theorem replaceFrom_skip : replaceFrom old new skip done cs = replaceFrom old new 0 done (cs.drop skip) := by
  induction skip generalizing cs with
  | zero => rfl
  | succ skip ih =>
    cases cs with
    | nil => rfl
    | cons ch cs => exact ih

theorem drop_occurrence {ch : Char} (hpart : part ≠ []) :
    (ch :: cs).drop part.length = cs.drop (part.length - 1) := by
  cases part with
  | nil => exact absurd rfl hpart
  | cons => rfl

theorem splitFrom_eq (hsep : sep ≠ []) : splitFrom sep 0 piece cs =
    (find? sep cs).elim [piece.reverse ++ cs] fun i =>
      (piece.reverse ++ cs.take i) :: splitFrom sep 0 [] (cs.drop (i + sep.length)) := by
  induction cs generalizing piece with
  | nil =>
    rw [find?_nil, if_neg hsep, splitFrom, Option.elim_none, List.append_nil]
  | cons ch cs ih =>
    rw [splitFrom]
    by_cases h : sep <+: ch :: cs
    · rw [if_pos (after?_isSome_iff.2 h), find?_cons_here h, splitFrom_skip, Option.elim_some, List.take_zero,
        List.append_nil, Nat.zero_add, drop_occurrence hsep]
    · rw [if_neg (after?_isSome_iff.not.2 h), find?_cons_skip h, ih, List.reverse_cons, List.append_assoc]
      cases find? sep cs with
      | none => rfl
      | some i =>
        show _ = _ :: splitFrom sep 0 [] ((ch :: cs).drop (i + 1 + sep.length))
        rw [Nat.add_right_comm, List.drop_succ_cons, Option.elim_some, List.append_assoc]
        rfl

theorem replaceFrom_done :
    replaceFrom old new skip done cs = done.reverse ++ replaceFrom old new skip [] cs := by
  induction cs generalizing skip done with
  | nil => cases skip <;> exact (List.append_nil _).symm
  | cons ch cs ih =>
    cases skip with
    | succ skip => exact ih
    | zero =>
      rw [replaceFrom, replaceFrom]
      split
      · rw [ih, @ih (new.reverse ++ []), List.reverse_append, List.append_nil, List.append_assoc]
      · rw [ih, @ih [ch], List.reverse_cons, List.append_assoc]
        rfl

theorem replaceFrom_eq (hold : old ≠ []) : replaceFrom old new 0 [] cs =
    (find? old cs).elim cs fun i =>
      cs.take i ++ new ++ replaceFrom old new 0 [] (cs.drop (i + old.length)) := by
  induction cs with
  | nil =>
    rw [find?_nil, if_neg hold]
    rfl
  | cons ch cs ih =>
    rw [replaceFrom]
    by_cases h : old <+: ch :: cs
    · rw [if_pos (after?_isSome_iff.2 h), find?_cons_here h, replaceFrom_skip, replaceFrom_done, Option.elim_some,
        List.take_zero, List.nil_append, List.append_nil, List.reverse_reverse, Nat.zero_add, drop_occurrence hold]
    · rw [if_neg (after?_isSome_iff.not.2 h), find?_cons_skip h, replaceFrom_done, ih]
      cases find? old cs with
      | none => rfl
      | some i =>
        show _ = _ ++ new ++ replaceFrom old new 0 [] ((ch :: cs).drop (i + 1 + old.length))
        rw [Nat.add_right_comm, List.drop_succ_cons]
        rfl

theorem split_of_ne (hsep : sep ≠ []) : split sep cs = splitFrom sep 0 [] cs :=
  if_neg (List.isEmpty_iff.not.2 hsep)

theorem replace_of_ne (hold : old ≠ []) : replace old new cs = replaceFrom old new 0 [] cs :=
  if_neg (List.isEmpty_iff.not.2 hold)

/-- A text is split at its first occurrence of the separator, and what follows it is split. -/
theorem split_eq (hsep : sep ≠ []) : split sep cs =
    (find? sep cs).elim [cs] fun i => cs.take i :: split sep (cs.drop (i + sep.length)) := by
  simp only [split_of_ne hsep]
  exact splitFrom_eq hsep

/-- The first occurrence in a text is replaced, and those in what follows it. -/
theorem replace_eq (hold : old ≠ []) : replace old new cs =
    (find? old cs).elim cs fun i => cs.take i ++ new ++ replace old new (cs.drop (i + old.length)) := by
  simp only [replace_of_ne hold]
  exact replaceFrom_eq hold

/-! ### Joining pieces -/

theorem split_ne_nil (hsep : sep ≠ []) : split sep cs ≠ [] := by
  rw [split_eq hsep]
  cases find? sep cs <;> nofun

/-- The pieces of a text, joined by a text, are the text with it for every separator. -/
theorem join_split_eq_replace (hsep : sep ≠ []) : join new (split sep cs) = replace sep new cs := by
  induction cs using occurrence_induction hsep with
  | hnone cs h =>
    rw [split_eq hsep, replace_eq hsep, h]
    exact List.intercalate_singleton
  | hsome cs i h ih =>
    rw [split_eq hsep, replace_eq hsep, h, Option.elim_some, Option.elim_some, ← ih]
    exact List.intercalate_cons_of_ne_nil (split_ne_nil hsep)

theorem replace_self (hold : old ≠ []) : replace old old cs = cs := by
  induction cs using occurrence_induction hold with
  | hnone cs h =>
    rw [replace_eq hold, h]
    rfl
  | hsome cs i h ih =>
    rw [replace_eq hold, h, Option.elim_some, ih]
    exact parts_of_find? h

theorem join_split_nil : join [] (split [] cs) = cs := by
  show [].intercalate (cs.map ([·])) = cs
  induction cs with
  | nil => rfl
  | cons ch cs ih =>
    by_cases hcs : cs = []
    · subst hcs
      rfl
    · rw [List.map_cons, List.intercalate_cons_of_ne_nil (List.map_eq_nil_iff.not.2 hcs), ih]
      rfl

/-- The pieces of a text, joined by the separator, are the text. -/
theorem join_split : join sep (split sep cs) = cs := by
  by_cases hsep : sep = []
  · rw [hsep]
    exact join_split_nil
  · rw [join_split_eq_replace hsep, replace_self hsep]

end Text

/-! ### The built-in functions -/

namespace Builtin
variable {s t sep new : String} {ref : Nat} {ty : Ty} {σ : Machine}

/-- Values for the pieces of a text. -/
def pieceValues (pieces : List (List Char)) : List Value :=
  pieces.map fun cs => .str (.ofList cs)

theorem run_split : (call .split [.str s, .str sep]).run.run σ =
    (Eval.newArray (pieceValues (Text.split sep.toList s.toList)).toArray (.array .string)).run.run σ := rfl

theorem run_join {text : String}
    (h : Value.joinTexts σ.world.store sep (σ.world.store.array ref).toList = some text) :
    (call .join [.array ref ty, .str sep]).run.run σ = (.ok (.str text), σ) := by
  have helems : (Eval.arrayArg [.array ref ty, .str sep] 0).run.run σ = (.ok (σ.world.store.array ref), σ) := rfl
  have hsep : (Eval.strArg [.array ref ty, .str sep] 1).run.run σ = (.ok sep, σ) := rfl
  have hstore : Eval.store.run.run σ = (.ok σ.world.store, σ) := rfl
  rw [call, Eval.run_bind, helems]
  dsimp only
  rw [Eval.run_bind, hsep]
  dsimp only
  rw [Eval.run_bind, hstore]
  dsimp only
  rw [h]
  rfl

theorem run_replace : (call .replace [.str s, .str sep, .str new]).run.run σ =
    (.ok (.str (.ofList (Text.replace sep.toList new.toList s.toList))), σ) := rfl

theorem run_index : (call .index [.str s, .str t]).run.run σ =
    (.ok (.num ((Text.find? t.toList s.toList).elim (-1.0) Float.ofNat)), σ) := rfl

theorem run_len : (call .len [.str t]).run.run σ = (.ok (.num (Float.ofNat t.length)), σ) := rfl

theorem mapM_display_pieceValues (store : Store Value) (pieces : List (List Char)) :
    (pieceValues pieces).mapM (Value.display store) = some (pieces.map String.ofList) := by
  induction pieces with
  | nil => rfl
  | cons cs pieces ih =>
    have hfirst : (Value.str (.ofList cs)).display store = some (.ofList cs) := rfl
    have hcons : pieceValues (cs :: pieces) = .str (.ofList cs) :: pieceValues pieces := rfl
    rw [hcons, List.mapM_cons, hfirst, ih]
    rfl

theorem joinTexts_pieceValues {store : Store Value} {pieces : List (List Char)} :
    Value.joinTexts store sep (pieceValues pieces) = some (String.ofList (Text.join sep.toList pieces)) := by
  have htexts : (pieces.map String.ofList).map String.toList = pieces := by
    rw [List.map_map]
    exact (List.map_congr_left fun _ _ => String.toList_ofList).trans (List.map_id pieces)
  rw [Value.joinTexts, mapM_display_pieceValues, Option.map_some]
  refine congrArg some (String.ext ?_)
  rw [String.toList_intercalate, htexts, String.toList_ofList, Text.join]

/-- Splits a text, and joins the pieces by another text. -/
def splitJoined (s sep new : String) : Eval Value := do
  let pieces ← call .split [.str s, .str sep]
  call .join [pieces, .str new]

theorem run_splitJoined (s sep new : String) (σ : Machine) : ∃ τ, (splitJoined s sep new).run.run σ =
    (.ok (.str (.ofList (Text.join new.toList (Text.split sep.toList s.toList)))), τ) := by
  obtain ⟨values, hvalues⟩ : ∃ vs, vs = (pieceValues (Text.split sep.toList s.toList)).toArray := ⟨_, rfl⟩
  have hstored : (σ.world.store.newArray values).2.array σ.world.store.arrays.size = values := by
    rw [Store.array_newArray, if_pos rfl]
  refine ⟨σ.withStore (σ.world.store.newArray values).2, ?_⟩
  rw [splitJoined, Eval.run_bind, run_split, ← hvalues, Eval.run_newArray]
  show (call .join [.array σ.world.store.arrays.size (.array .string), .str new]).run.run _ = _
  refine run_join ?_
  show Value.joinTexts _ new ((σ.world.store.newArray values).2.array σ.world.store.arrays.size).toList = _
  rw [hstored, hvalues, joinTexts_pieceValues]

/-- The part of a text between two places that doubles count. -/
theorem run_slice_ofNat {i j : Nat} (hij : i ≤ j) (hj : j ≤ s.length) (hexact : j < Nat.pow 2 53) :
    ((Value.str s).slice (some (Float.ofNat i)) (some (Float.ofNat j))).run.run σ =
      (.ok (.str (.ofList ((s.toList.drop i).take (j - i)))), σ) := by
  have hlen : s.length = s.toList.length := String.length_toList.symm
  have hi := Number.resolve_ofNat (Nat.le_trans hij hj) (Nat.lt_of_le_of_lt hij hexact)
  have hj := Number.resolve_ofNat hj hexact
  have hplaces : Index.slice (some (Float.ofNat i)) (some (Float.ofNat j)) s.toList.toArray.size = .ok (i, j) := by
    show (Index.resolve _ s.toList.length true >>= fun a => Index.resolve _ s.toList.length true >>= fun b =>
      if b < a then _ else _) = _
    rw [← hlen, hi]
    show (Index.resolve _ s.length true >>= fun b => if b < i then _ else _) = _
    rw [hj]
    exact if_neg (Nat.not_lt.2 hij)
  rw [Value.run_slice_str, Index.cut_of_ok _ hplaces]
  simp only [Except.map, Array.toList_extract, List.extract_eq_take_drop]
  rfl

/-- Joining what was split gives the text, or the text with the separator replaced, and what is found in a
text is there, and first there. A double is the place where it was found as long as doubles count that far. -/
theorem searches_agree (σ : Machine) (s sep new t : String) :
    (∃ τ, (splitJoined s sep sep).run.run σ = (.ok (.str s), τ)) ∧
    (sep ≠ "" → ∃ u τ, (splitJoined s sep new).run.run σ = (.ok (.str u), τ) ∧
      (call .replace [.str s, .str sep, .str new]).run.run σ = (.ok (.str u), σ)) ∧
    ∃ x, (call .index [.str s, .str t]).run.run σ = (.ok (.num x), σ) ∧
      (x == -1.0 ↔ ¬ t.toList <:+: s.toList) ∧
      (t.toList <:+: s.toList → ∃ i, x = Float.ofNat i ∧
        t.toList <+: s.toList.drop i ∧ (∀ j < i, ¬ t.toList <+: s.toList.drop j) ∧
        (i + t.length < Nat.pow 2 53 → ∃ n, (call .len [.str t]).run.run σ = (.ok (.num n), σ) ∧
          ((Value.str s).slice (some x) (some (x + n))).run.run σ = (.ok (.str t), σ))) := by
  refine ⟨?_, fun hsep => ?_, _, run_index, ?_, fun hoccurs => ?_⟩
  · obtain ⟨τ, hrun⟩ := run_splitJoined s sep sep σ
    refine ⟨τ, ?_⟩
    rw [hrun, Text.join_split, String.ofList_toList]
  · have hsep : sep.toList ≠ [] := String.toList_eq_nil_iff.not.2 hsep
    obtain ⟨τ, hrun⟩ := run_splitJoined s sep new σ
    refine ⟨_, τ, hrun, ?_⟩
    rw [run_replace, Text.join_split_eq_replace hsep]
  · rw [← Text.find?_eq_none_iff]
    cases h : Text.find? t.toList s.toList with
    | none => exact iff_of_true rfl rfl
    | some i => exact iff_of_false (Bool.eq_false_iff.1 (Number.ofNat_ne_neg_one i)) nofun
  · cases h : Text.find? t.toList s.toList with
    | none => exact absurd hoccurs (Text.find?_eq_none_iff.1 h)
    | some i =>
      obtain ⟨hfound, hleft⟩ := Text.prefix_of_find? h
      refine ⟨i, rfl, hfound, hleft, fun hexact => ⟨_, run_len, ?_⟩⟩
      have hend : i + t.length ≤ s.length := by
        rw [← String.length_toList, ← String.length_toList]
        exact Text.end_le_of_find? h
      have htext : String.ofList ((s.toList.drop i).take t.length) = t := by
        rw [← String.length_toList, ← List.prefix_iff_eq_take.1 hfound, String.ofList_toList]
      show ((Value.str s).slice (some (Float.ofNat i)) (some (Float.ofNat i + Float.ofNat t.length))).run.run σ = _
      rw [Number.ofNat_add hexact, run_slice_ofNat (Nat.le_add_right _ _) hend hexact, Nat.add_sub_cancel_left, htext]

theorem overlapping_searches :
    (∃ τ, (splitJoined "aaaé" "aa" "-").run.run {} = (.ok (.str "-aé"), τ)) ∧
    ∃ x n, (call .index [.str "aaaé", .str "aé"]).run.run {} = (.ok (.num x), {}) ∧
      (call .len [.str "aé"]).run.run {} = (.ok (.num n), {}) ∧
      ((Value.str "aaaé").slice (some x) (some (x + n))).run.run {} = (.ok (.str "aé"), {}) := by
  obtain ⟨-, hjoin, x, hindex, -, hfound⟩ := searches_agree {} "aaaé" "aa" "-" "aé"
  obtain ⟨i, -, hprefix, -, hslice⟩ := hfound (by decide)
  have hi : i ≤ 2 := by
    have hlength := hprefix.length_le
    rw [List.length_drop] at hlength
    have : 2 ≤ 4 - i := hlength
    omega
  obtain ⟨n, hlen, hpart⟩ := hslice (Nat.lt_of_le_of_lt (Nat.add_le_add_right hi _) (by decide))
  obtain ⟨u, τ, hrun, hreplace⟩ := hjoin (by decide)
  have hu : u = "-aé" := by
    have hsame : (Except.ok (Value.str u), ({} : Machine)) = (.ok (.str "-aé"), {}) := hreplace.symm.trans rfl
    injection hsame with hvalue
    injection hvalue with hstr
    injection hstr
  exact ⟨⟨τ, hu ▸ hrun⟩, x, n, hindex, hlen, hpart⟩

end Builtin

end TinyScript
