import TinyScript.Eval.Builtin
import TinyScript.Proofs.Equality
import TinyScript.Proofs.Eval.Runs

/-!
# Formats compose

A directive is a percent sign, a header of flags, a width and a precision, and a verb: the first character
that the header cannot go on with (`Printf.isHeader`). From that alone follows how many values a format takes
(`Printf.takes`). The formatter keeps a mode instead of the header, which knows how the header can go on
(`Printf.Follows`), and so it takes the same values. After what takes all values it is back in the text,
whatever comes next, and nothing of it stays behind but what was written (`Printf.formatFrom_append`).

A value that contains itself has no text (`Value.display_isSome_iff`), and no format with it comes to an end.
-/

namespace TinyScript

/-! ### Texts of values -/

theorem isSome_mapM_iff {α β : Type} {f : α → Option β} {l : List α} :
    (l.mapM f).isSome ↔ ∀ x ∈ l, (f x).isSome := by
  induction l with
  | nil => simp
  | cons x l ih =>
    rw [List.mapM_cons, List.forall_mem_cons, ← ih]
    cases f x <;> cases l.mapM f <;> simp

namespace Value
variable {s : Store Value} {v x : Value} {quoted : Bool} {parts : Value → Option String} {n : Nat}

/-- A value has a text if all values have one that lie in it. -/
theorem textBy_isSome (h : ∀ x, Inside s v x → (parts x).isSome) : (textBy s quoted parts v).isSome := by
  induction v with
  | any v ih =>
    have href : v.ref? = (Value.any v).ref? := rfl
    exact ih fun x hx => h x (hx.of_ref? href)
  | array r t =>
    have helems := isSome_mapM_iff.2 fun x hx => h x (.elem rfl hx)
    obtain ⟨texts, htexts⟩ := Option.isSome_iff_exists.1 helems
    rw [textBy, htexts]
    rfl
  | map r t =>
    have hfields : ((s.map r).toList.mapM fun (k, x) =>
        (parts x).map ((if quoted then keyText k else k) ++ ":" ++ ·)).isSome := by
      refine isSome_mapM_iff.2 fun (k, x) hx => ?_
      rw [Option.isSome_map]
      exact h x (.field rfl (Pairs.get?_of_mem_toList hx))
    obtain ⟨texts, htexts⟩ := Option.isSome_iff_exists.1 hfields
    rw [textBy, htexts]
    rfl
  | _ => rfl

theorem isSome_of_textBy (hs : s.Sound) (h : (textBy s quoted parts v).isSome) (hx : Inside s v x) :
    (parts x).isSome := by
  induction v with
  | any v ih =>
    have href : v.ref? = (Value.any v).ref? := rfl
    exact ih h (hx.of_ref? href.symm)
  | array r t =>
    cases hx with
    | elem href hx =>
      cases href
      exact isSome_mapM_iff.1 (Option.isSome_of_isSome_bind h) x hx
    | field href => cases href
  | map r t =>
    cases hx with
    | elem href => cases href
    | field href hx =>
      cases href
      have hmem := ((hs r).mem_toList_iff).2 hx
      have hfield := isSome_mapM_iff.1 (Option.isSome_of_isSome_bind h) _ hmem
      rw [Option.isSome_map] at hfield
      exact hfield
  | _ => cases hx with
    | elem href => cases href
    | field href => cases href

theorem textWithin_isSome (h : Height (Inside s) n v) : (textWithin s quoted n v).isSome := by
  induction h with
  | intro _ ih => exact textBy_isSome ih

theorem acyclic_of_textWithin (hs : s.Sound) (h : (textWithin s quoted n v).isSome) : v.Acyclic s := by
  induction n generalizing v with
  | zero => cases h
  | succ n ih => exact acyclic_of_inside fun x hx => ih (isSome_of_textBy hs h hx)

theorem display_isSome (h : v.Acyclic s) : (v.display s).isSome :=
  textWithin_isSome (height_inside h)

theorem quoted_isSome (h : v.Acyclic s) : (v.quoted s).isSome :=
  textWithin_isSome (height_inside h)

/-- The values without a text are those that contain themselves, so the fuel is no limit. -/
theorem display_isSome_iff (hs : s.Sound) : (v.display s).isSome ↔ v.Acyclic s :=
  ⟨acyclic_of_textWithin hs, display_isSome⟩

theorem Acyclic.unwrap (h : v.Acyclic s) : v.unwrap.Acyclic s := by
  cases v with
  | any v => exact h.of_contains .any
  | _ => exact h

/-- A value in a slot of type any has the text of what is inside. -/
theorem display_unwrap (s : Store Value) (v : Value) : v.unwrap.display s = v.display s := by
  cases v <;> rfl

theorem joinTexts_singleton {s : Store Value} {sep : String} {v : Value} : joinTexts s sep [v] = v.display s := by
  simp only [joinTexts, List.mapM_cons, List.mapM_nil, Option.bind_eq_bind, Option.map_bind, Function.comp_def,
    Option.pure_def, Option.bind_some, Option.map_some, String.intercalate_singleton, Option.bind_fun_some]

theorem joinTexts_cons_cons {s : Store Value} {sep : String} {v w : Value} {vs : List Value} :
    joinTexts s sep (v :: w :: vs) =
      (v.display s).bind fun t => (joinTexts s sep (w :: vs)).map (t ++ sep ++ ·) := by
  simp only [joinTexts, List.mapM_cons, Option.bind_eq_bind, Option.map_bind, Option.bind_assoc,
    Function.comp_def, Option.pure_def, Option.bind_some, Option.map_some, String.intercalate_cons_cons]

end Value

namespace Printf

/-! ### Directives -/

def isFlag (ch : Char) : Bool :=
  ch ∈ ['-', '+', '0', ' ', '#']

/-- Whether a header can end with these characters behind its flags: digits, and digits after a point. -/
def isSize (cs : List Char) : Bool :=
  match cs.dropWhile Char.isDigit with
  | [] => true
  | '.' :: ds => ds.all Char.isDigit
  | _ => false

/-- Whether the characters are the header of a directive. -/
def isHeader (cs : List Char) : Bool :=
  isSize (cs.dropWhile isFlag)

/-- The number of values that the rest of a format takes, after a header if it is inside a directive. -/
def takesFrom : (header : Option (List Char)) → List Char → Option Nat
  | none, [] => some 0
  | some _, [] => none
  | none, ch :: cs => takesFrom (if ch = '%' then some [] else none) cs
  | some h, ch :: cs =>
    if isHeader (h ++ [ch]) then takesFrom (some (h ++ [ch])) cs
    else if ch = '%' then takesFrom none cs
    else (takesFrom none cs).map (· + 1)

/-- The number of values that a format takes, unless it ends inside a directive. -/
def takes (fmt : String) : Option Nat :=
  takesFrom none fmt.toList

/-! ### Modes -/

section
variable {m m' : Mode} {spec : Spec} {ch : Char} {h cs : List Char}

/-- Whether a directive can go on with these characters, up to its verb. -/
def Mode.goesOn : Mode → List Char → Bool
  | .text, _ => false
  | .flags _, cs => isHeader cs
  | .width _, cs => isSize cs
  | .precision _, cs => cs.all Char.isDigit

theorem isHeader_cons_of_flag (hch : isFlag ch) : isHeader (ch :: cs) = isHeader cs := by
  rw [isHeader, List.dropWhile_cons_of_pos hch, isHeader]

theorem isHeader_cons_of_not_flag (hch : ¬ isFlag ch) : isHeader (ch :: cs) = isSize (ch :: cs) := by
  rw [isHeader, List.dropWhile_cons_of_neg hch]

theorem isSize_cons_of_digit (hch : ch.isDigit) : isSize (ch :: cs) = isSize cs := by
  rw [isSize, List.dropWhile_cons_of_pos hch, isSize]

theorem isSize_cons_of_not_digit (hch : ¬ ch.isDigit) :
    isSize (ch :: cs) = (decide (ch = '.') && cs.all Char.isDigit) := by
  rw [isSize, List.dropWhile_cons_of_neg hch]
  split
  · next h => nomatch h
  · next ds h =>
    obtain ⟨rfl, rfl⟩ := List.cons.inj h
    rfl
  · next hpoint =>
    have hch : ch ≠ '.' := fun heq => hpoint cs (heq ▸ rfl)
    rw [decide_eq_false hch, Bool.false_and]

/-- What a character does to a directive: it goes on as the mode says, or ends. -/
inductive Mode.Reads (m : Mode) (ch : Char) : Step → Prop where
  | more {m' : Mode} (h : ∀ cs, m.goesOn (ch :: cs) = m'.goesOn cs) (hend : m'.goesOn []) : m.Reads ch (.more m')
  | verb {spec : Spec} (h : m.goesOn [ch] = false) : m.Reads ch (.verb spec)

theorem afterFlags_reads (hm : ∀ cs, m.goesOn (ch :: cs) = isSize (ch :: cs)) :
    m.Reads ch (afterFlags spec ch) := by
  unfold afterFlags
  split
  · next hdigit =>
    exact .more (fun cs => (hm cs).trans (isSize_cons_of_digit hdigit)) rfl
  · next hdigit =>
    split
    · next hpoint =>
      refine .more (fun cs => ?_) rfl
      rw [hm, isSize_cons_of_not_digit hdigit, decide_eq_true hpoint, Bool.true_and]
      rfl
    · next hpoint =>
      refine .verb ?_
      rw [hm, isSize_cons_of_not_digit hdigit, decide_eq_false hpoint, Bool.false_and]

theorem step_flags_of_flag (hch : isFlag ch) : ∃ spec', step (.flags spec) ch = .more (.flags spec') := by
  simp only [isFlag, decide_eq_true_eq, List.mem_cons, List.not_mem_nil, or_false] at hch
  rcases hch with rfl | rfl | rfl | rfl | rfl <;> exact ⟨_, rfl⟩

theorem step_flags_of_not_flag (hch : ¬ isFlag ch) : step (.flags spec) ch = afterFlags spec ch := by
  unfold step
  dsimp only
  split <;> first | rfl | exact absurd rfl hch

/-- The formatter reads a directive as far as its header goes. -/
theorem step_reads (hm : m.goesOn []) : m.Reads ch (step m ch) := by
  cases m with
  | text => nomatch hm
  | flags spec =>
    by_cases hch : isFlag ch
    · obtain ⟨spec', hstep⟩ := step_flags_of_flag hch
      rw [hstep]
      exact .more (fun cs => isHeader_cons_of_flag hch) rfl
    · rw [step_flags_of_not_flag hch]
      exact afterFlags_reads fun cs => isHeader_cons_of_not_flag hch
  | width spec => exact afterFlags_reads fun cs => rfl
  | precision spec =>
    by_cases hch : ch.isDigit
    · rw [step, if_pos hch]
      exact .more (fun cs => by rw [Mode.goesOn, List.all_cons, hch, Bool.true_and, Mode.goesOn]) rfl
    · rw [step, if_neg hch]
      exact .verb (by rw [Mode.goesOn, List.all_cons, Bool.eq_false_iff.2 hch, Bool.false_and])

end

/-! ### Formats -/

/-- The mode of the formatter behind a header, or in the text. -/
def Follows : Option (List Char) → Mode → Prop
  | none, m => m = .text
  | some h, m => m.goesOn [] ∧ ∀ cs, isHeader (h ++ cs) = m.goesOn cs

section
variable {s : Store Value} {m : Mode} {ch : Char} {h cs : List Char} {vs : List Value} {n : Nat}

theorem follows_text : Follows none .text := rfl

theorem Follows.text (hm : Follows none m) : m = .text := hm

/-- A character that the header goes on with is read. -/
theorem Follows.more (hm : Follows (some h) m) (hch : isHeader (h ++ [ch])) :
    ∃ m', step m ch = .more m' ∧ Follows (some (h ++ [ch])) m' := by
  obtain ⟨hend, hgoes⟩ := hm
  rw [hgoes] at hch
  obtain ⟨st, hst⟩ : ∃ st, step m ch = st := ⟨_, rfl⟩
  have hreads : m.Reads ch st := hst ▸ step_reads hend
  rw [hst]
  cases hreads with
  | @more m' hmore hend' =>
    refine ⟨m', rfl, hend', fun cs => ?_⟩
    rw [List.append_assoc, hgoes]
    exact hmore cs
  | verb hverb => exact absurd hch (Bool.eq_false_iff.1 hverb)

/-- Any other one is the verb. -/
theorem Follows.verb (hm : Follows (some h) m) (hch : ¬ isHeader (h ++ [ch])) :
    ∃ spec, step m ch = .verb spec := by
  obtain ⟨hend, hgoes⟩ := hm
  rw [hgoes] at hch
  obtain ⟨st, hst⟩ : ∃ st, step m ch = st := ⟨_, rfl⟩
  have hreads : m.Reads ch st := hst ▸ step_reads hend
  rw [hst]
  cases hreads with
  | more hmore hend' => exact absurd ((hmore []).trans hend') hch
  | verb => exact ⟨_, rfl⟩

theorem formatFrom_cons {done : String} : formatFrom s m (ch :: cs) vs done =
    match step m ch with
    | .literal => formatFrom s .text cs vs (done.push ch)
    | .more m' => formatFrom s m' cs vs done
    | .verb spec =>
      if ch = '%' then formatFrom s .text cs vs (done.push '%')
      else
        match vs with
        | v :: vs => (directive s spec ch v).bind fun t => formatFrom s .text cs vs (done ++ t)
        | [] => formatFrom s .text cs [] (done ++ "%!" ++ String.singleton ch ++ "(MISSING)") := by
  cases m <;> rfl

theorem push_append (t u : String) : t.push ch ++ u = t ++ (String.singleton ch ++ u) := by
  rw [String.push_eq_append, String.append_assoc]

/-- What is written by a format that takes all of the values is written whatever else there is. -/
theorem formatFrom_append {o : Option (List Char)} (hm : Follows o m) (h : takesFrom o cs = some vs.length) :
    ∃ out : Option String, ∀ ds ws done, formatFrom s m (cs ++ ds) (vs ++ ws) done =
      out.bind fun t => formatFrom s .text ds ws (done ++ t) := by
  induction cs generalizing o m vs with
  | nil =>
    cases o with
    | some => nomatch h
    | none =>
      cases hm.text
      cases List.eq_nil_of_length_eq_zero (Option.some.inj h).symm
      exact ⟨some "", fun ds ws done => by rw [Option.bind_some, String.append_empty]; rfl⟩
  | cons ch cs ih =>
    simp only [List.cons_append, formatFrom_cons]
    cases o with
    | none =>
      cases hm.text
      by_cases hch : ch = '%'
      · subst hch
        exact @ih _ _ (some []) ⟨rfl, fun cs => rfl⟩ h
      · rw [takesFrom, if_neg hch] at h
        obtain ⟨out, hout⟩ := ih follows_text h
        refine ⟨out.map (String.singleton ch ++ ·), fun ds ws done => ?_⟩
        rw [step, if_neg hch]
        dsimp only
        simp only [hout, push_append, Option.bind_map, Function.comp_def]
    | some header =>
      rw [takesFrom] at h
      by_cases hheader : isHeader (header ++ [ch])
      · rw [if_pos hheader] at h
        obtain ⟨m', hstep, hm'⟩ := hm.more hheader
        rw [hstep]
        exact ih hm' h
      · rw [if_neg hheader] at h
        obtain ⟨spec, hstep⟩ := hm.verb hheader
        rw [hstep]
        by_cases hch : ch = '%'
        · rw [if_pos hch] at h
          obtain ⟨out, hout⟩ := ih follows_text h
          refine ⟨out.map (String.singleton '%' ++ ·), fun ds ws done => ?_⟩
          dsimp only
          simp only [if_pos hch, hout, push_append, Option.bind_map, Function.comp_def]
        · rw [if_neg hch] at h
          obtain ⟨k, hk, hlength⟩ := Option.map_eq_some_iff.1 h
          cases vs with
          | nil => nomatch hlength
          | cons v vs =>
            obtain rfl : k = vs.length := Nat.succ.inj hlength
            obtain ⟨out, hout⟩ := ih follows_text hk
            refine ⟨(directive s spec ch v).bind fun t => out.map (t ++ ·), fun ds ws done => ?_⟩
            simp only [List.cons_append, if_neg hch, hout, String.append_assoc, Option.bind_assoc,
              Option.bind_map, Function.comp_def]

/-- A character adds to what was written, and does not depend on it. -/
theorem exists_formatFrom_cons (s : Store Value) (m : Mode) (ch : Char) (vs : List Value) :
    ∃ (m' : Mode) (vs' : List Value) (out : Option String), ∀ cs done,
      formatFrom s m (ch :: cs) vs done = out.bind fun t => formatFrom s m' cs vs' (done ++ t) := by
  simp only [formatFrom_cons]
  cases step m ch with
  | literal => exact ⟨_, _, some (.singleton ch), fun cs done => by rw [String.push_eq_append]; rfl⟩
  | more m' => exact ⟨m', _, some "", fun cs done => by rw [Option.bind_some, String.append_empty]⟩
  | verb spec =>
    dsimp only
    by_cases hch : ch = '%'
    · exact ⟨_, _, some "%", fun cs done => by rw [if_pos hch, String.push_eq_append]; rfl⟩
    · simp only [if_neg hch]
      cases vs with
      | nil =>
        exact ⟨.text, [], some ("%!" ++ .singleton ch ++ "(MISSING)"), fun cs done => by
          simp only [String.append_assoc, Option.bind_some]⟩
      | cons v vs => exact ⟨_, _, _, fun cs done => rfl⟩

theorem formatFrom_done {done : String} :
    formatFrom s m cs vs done = (formatFrom s m cs vs "").map (done ++ ·) := by
  induction cs generalizing m vs done with
  | nil =>
    cases m <;> simp only [formatFrom, Option.map_map, Function.comp_def, String.empty_append, String.append_assoc]
  | cons ch cs ih =>
    obtain ⟨m', vs', out, hstep⟩ := exists_formatFrom_cons s m ch vs
    have hsplit (t : String) : formatFrom s m' cs vs' (done ++ t) =
        (formatFrom s m' cs vs' ("" ++ t)).map (done ++ ·) := by
      rw [ih, @ih _ _ ("" ++ t), Option.map_map, String.empty_append]
      exact congrArg (Option.map · _) (funext fun u => String.append_assoc)
    simp only [hstep, hsplit, Option.map_bind, Function.comp_def]

/-- Formats compose if the first one takes as many values as there are for it. -/
theorem format_append {f₁ f₂ : String} {ws : List Value} (h : takes f₁ = some vs.length) :
    format s (f₁ ++ f₂) (vs ++ ws) = (format s f₁ vs).bind fun t => (format s f₂ ws).map (t ++ ·) := by
  have htakes : takesFrom none f₁.toList = some (vs.map Value.unwrap).length := by
    rw [List.length_map]
    exact h
  obtain ⟨out, hout⟩ := formatFrom_append (s := s) follows_text htakes
  have hfirst : format s f₁ vs = out := by
    have hrun := hout [] [] ""
    have hend (t : String) : formatFrom s .text [] [] ("" ++ t) = some t := by
      rw [String.empty_append]
      exact congrArg some String.append_empty
    simp only [List.append_nil, hend, Option.bind_fun_some] at hrun
    exact hrun
  rw [hfirst, format, String.toList_append, List.map_append, hout]
  congr 1
  funext t
  rw [formatFrom_done, String.empty_append]
  rfl

/-- Formats take the values that their parts take. -/
theorem takesFrom_append {o : Option (List Char)} {ds : List Char} (h : takesFrom o cs = some n) :
    takesFrom o (cs ++ ds) = (takesFrom none ds).map (n + ·) := by
  induction cs generalizing o n with
  | nil =>
    cases o with
    | some => nomatch h
    | none =>
      cases Option.some.inj h
      simp only [List.nil_append, Nat.zero_add, Option.map_id']
  | cons ch cs ih =>
    rw [List.cons_append]
    cases o with
    | none =>
      rw [takesFrom] at h ⊢
      exact ih h
    | some header =>
      rw [takesFrom] at h ⊢
      split at h
      · next hheader =>
        rw [if_pos hheader]
        exact ih h
      · next hheader =>
        rw [if_neg hheader]
        split at h
        · next hch =>
          rw [if_pos hch]
          exact ih h
        · next hch =>
          obtain ⟨k, hk, rfl⟩ := Option.map_eq_some_iff.1 h
          rw [if_neg hch, ih hk, Option.map_map]
          exact congrArg (Option.map · _) (funext fun j => Nat.add_right_comm k j 1)

theorem takes_append {f₁ f₂ : String} (h : takes f₁ = some n) : takes (f₁ ++ f₂) = (takes f₂).map (n + ·) := by
  rw [takes, String.toList_append, takesFrom_append h, takes]

end

/-! ### Values with spaces between them -/

/-- The format that writes values with a space between them. -/
def verbs (n : Nat) : String :=
  " ".intercalate (List.replicate n "%v")

theorem verbs_succ (n : Nat) : verbs (n + 2) = "%v" ++ " " ++ verbs (n + 1) :=
  String.intercalate_cons_of_ne_nil nofun

theorem takes_verbs (n : Nat) : takes (verbs n) = some n := by
  induction n with
  | zero => decide
  | succ n ih =>
    cases n with
    | zero => decide
    | succ n =>
      have hfirst : takes ("%v" ++ " ") = some 1 := by decide
      rw [verbs_succ, takes_append hfirst, ih, Option.map_some, Nat.add_comm]

theorem directive_v (s : Store Value) (v : Value) : directive s {} 'v' v = v.display s := by
  have hpad (isNum : Bool) (cs : List Char) : pad {} isNum cs = cs := by
    have hfill : (0 : UInt64).toNat - cs.length = 0 := Nat.zero_sub _
    show List.replicate ((0 : UInt64).toNat - cs.length) ' ' ++ cs = cs
    rw [hfill]
    rfl
  have htext : verbText? s {} 'v' v = some (v.display s) := by
    cases v <;> rfl
  unfold directive
  rw [htext]
  dsimp only
  simp only [hpad, String.ofList_toList, Option.map_id']

theorem format_verb (s : Store Value) (v : Value) : format s "%v" [v] = v.display s := by
  show ((directive s {} 'v' v.unwrap).bind fun t => some ("" ++ t ++ "")) = _
  simp only [directive_v, Value.display_unwrap, String.append_empty, String.empty_append, Option.bind_fun_some]

theorem format_verbs (s : Store Value) (vs : List Value) :
    format s (verbs vs.length) vs = Value.joinTexts s " " vs := by
  induction vs with
  | nil => rfl
  | cons v vs ih =>
    cases vs with
    | nil => exact (format_verb s v).trans Value.joinTexts_singleton.symm
    | cons w vs =>
      have hfirst : takes "%v" = some 1 := by decide
      have hspace : takes ("%v" ++ " ") = some 1 := by decide
      have hwritten : format s ("%v" ++ " ") ([v] ++ []) = (v.display s).map (· ++ " ") := by
        rw [format_append hfirst, format_verb]
        cases v.display s <;> rfl
      show format s (verbs (vs.length + 2)) ([v] ++ w :: vs) = _
      rw [verbs_succ, format_append hspace, Value.joinTexts_cons_cons, ← ih]
      exact (congrArg (Option.bind · _) hwritten).trans Option.bind_map

/-! ### Formats of values without cycles -/

section
variable {s : Store Value} {v : Value} {vs : List Value}

theorem isSome_of_verbText? {spec : Spec} {verb : Char} {text : Option String} (hv : v.Acyclic s)
    (h : verbText? s spec verb v = some text) : text.isSome := by
  unfold verbText? at h
  split at h
  · exact Option.some.inj h ▸ rfl
  · exact Option.some.inj h ▸ Value.display_isSome hv
  · split at h
    · exact Option.some.inj h ▸ rfl
    · cases h
  · exact Option.some.inj h ▸ rfl
  · exact Option.some.inj h ▸ rfl
  · split at h <;> exact Option.some.inj h ▸ rfl
  · exact Option.some.inj h ▸ Value.display_isSome hv
  · exact Option.some.inj h ▸ Value.display_isSome hv
  · exact Option.some.inj h ▸ Value.quoted_isSome hv
  · exact Option.some.inj h ▸ Value.quoted_isSome hv
  · exact Option.some.inj h ▸ Value.quoted_isSome hv
  · exact Option.some.inj h ▸ Value.display_isSome hv
  · cases h

theorem directive_isSome (hv : v.Acyclic s) (spec : Spec) (verb : Char) : (directive s spec verb v).isSome := by
  unfold directive
  split
  · next htext =>
    rw [Option.isSome_map]
    exact isSome_of_verbText? hv htext
  · rw [Option.isSome_map, typed, Option.isSome_map]
    exact Value.display_isSome hv

theorem extra_isSome (hvs : ∀ v ∈ vs, v.Acyclic s) : (extra s vs).isSome := by
  unfold extra
  split
  · rfl
  · rw [Option.isSome_map]
    refine isSome_mapM_iff.2 fun v hv => ?_
    rw [typed, Option.isSome_map]
    exact Value.display_isSome (hvs v hv)

theorem formatFrom_isSome {m : Mode} {cs : List Char} {done : String} (hvs : ∀ v ∈ vs, v.Acyclic s) :
    (formatFrom s m cs vs done).isSome := by
  induction cs generalizing m vs done with
  | nil =>
    cases m with
    | text =>
      rw [formatFrom, Option.isSome_map]
      exact extra_isSome hvs
    | _ =>
      rw [formatFrom, Option.isSome_map]
      · exact extra_isSome hvs
      · exact fun h => by cases h
  | cons ch cs ih =>
    rw [formatFrom_cons]
    split
    · exact ih hvs
    · exact ih hvs
    · next spec _ =>
      split
      · exact ih hvs
      · cases vs with
        | nil => exact ih hvs
        | cons v vs =>
          obtain ⟨hv, hvs⟩ := List.forall_mem_cons.1 hvs
          obtain ⟨t, ht⟩ := Option.isSome_iff_exists.1 (directive_isSome hv spec ch)
          dsimp only
          rw [ht]
          exact ih hvs

/-- Values that do not contain themselves can be written by any format. -/
theorem format_isSome (fmt : String) (hvs : ∀ v ∈ vs, v.Acyclic s) : (format s fmt vs).isSome := by
  refine formatFrom_isSome fun v hv => ?_
  obtain ⟨w, hw, rfl⟩ := List.mem_map.1 hv
  exact (hvs w hw).unwrap

end

end Printf

/-! ### The built-in functions -/

namespace Builtin

open Eval (answered)

variable {fmt : String} {vs : List Value} {σ : Machine}

/-- The result of a function that gives a text, if there is one. -/
def textResult (text : Option String) : Eval Value := do
  return .str (← answered text)

/-- The output of a text, if there is one. -/
def textOutput (text : Option String) : Eval Value := do
  drawn (.print (← answered text))

theorem run_formatted {func : String} : (formatted func (.str fmt :: vs)).run.run σ =
    (answered (Printf.format σ.world.store fmt vs)).run.run σ := by
  have hfmt : (Eval.formatArg func (.str fmt :: vs)).run.run σ = (.ok fmt, σ) := rfl
  have hstore : Eval.store.run.run σ = (.ok σ.world.store, σ) := rfl
  rw [formatted, Eval.run_bind, hfmt]
  dsimp only
  rw [Eval.run_bind, hstore, List.tail_cons]

theorem run_sprintf : (call .sprintf (.str fmt :: vs)).run.run σ =
    (textResult (Printf.format σ.world.store fmt vs)).run.run σ := by
  rw [call, Eval.run_bind, run_formatted, textResult, Eval.run_bind]

theorem run_printf : (call .printf (.str fmt :: vs)).run.run σ =
    (textOutput (Printf.format σ.world.store fmt vs)).run.run σ := by
  rw [call, Eval.run_bind, run_formatted, textOutput, Eval.run_bind]

theorem run_spaced : (spaced vs).run.run σ =
    (answered (Value.joinTexts σ.world.store " " vs)).run.run σ := by
  have hstore : Eval.store.run.run σ = (.ok σ.world.store, σ) := rfl
  rw [spaced, Eval.run_bind, hstore]

theorem run_sprint : (call .sprint vs).run.run σ =
    (textResult (Value.joinTexts σ.world.store " " vs)).run.run σ := by
  rw [call, Eval.run_bind, run_spaced, textResult, Eval.run_bind]

theorem run_print : (call .print vs).run.run σ =
    (textOutput ((Value.joinTexts σ.world.store " " vs).map (· ++ "\n"))).run.run σ := by
  rw [call, Eval.run_bind, run_spaced, textOutput, Eval.run_bind]
  cases Value.joinTexts σ.world.store " " vs <;> rfl

/-- A format that takes as many values as there are for it can be written before any other one, with other
values, and all of them are written if no value contains itself. In particular values can be written with
a space between them. -/
theorem formats_compose (σ : Machine) :
    (∀ (f₁ f₂ : String) (vs ws : List Value), Printf.takes f₁ = some vs.length → ∃ t u : Option String,
      (call .sprintf (.str f₁ :: vs)).run.run σ = (textResult t).run.run σ ∧
      (call .sprintf (.str f₂ :: ws)).run.run σ = (textResult u).run.run σ ∧
      (call .sprintf (.str (f₁ ++ f₂) :: (vs ++ ws))).run.run σ =
        (textResult (t.bind fun t => u.map (t ++ ·))).run.run σ ∧
      ((∀ v ∈ vs, v.Acyclic σ.world.store) → t.isSome) ∧ ((∀ w ∈ ws, w.Acyclic σ.world.store) → u.isSome)) ∧
    ∀ vs : List Value,
      (call .sprintf (.str (Printf.verbs vs.length) :: vs)).run.run σ = (call .sprint vs).run.run σ ∧
      (call .printf (.str (Printf.verbs vs.length ++ "\n") :: vs)).run.run σ = (call .print vs).run.run σ := by
  refine ⟨fun f₁ f₂ vs ws h => ⟨_, _, run_sprintf, run_sprintf, ?_, Printf.format_isSome f₁,
    Printf.format_isSome f₂⟩, fun vs => ?_⟩
  · rw [run_sprintf, Printf.format_append h]
  · have hline : Printf.format σ.world.store (Printf.verbs vs.length ++ "\n") (vs ++ []) =
        (Value.joinTexts σ.world.store " " vs).map (· ++ "\n") := by
      rw [Printf.format_append (Printf.takes_verbs vs.length), Printf.format_verbs]
      cases Value.joinTexts σ.world.store " " vs <;> rfl
    rw [List.append_nil] at hline
    rw [run_sprintf, run_sprint, Printf.format_verbs, run_printf, run_print, hline]
    exact ⟨rfl, rfl⟩

theorem mixedFormat_composes :
    (∃ t u, (call .sprintf [.str "%05.1f%-%|", .num 2.5]).run.run {} = (.ok (.str t), {}) ∧
      (call .sprintf [.str "%v %v%", .str "x"]).run.run {} = (.ok (.str u), {}) ∧
      (call .sprintf [.str ("%05.1f%-%|" ++ "%v %v%"), .num 2.5, .str "x"]).run.run {} = (.ok (.str (t ++ u)), {})) ∧
    (call .sprintf [.str "%v %v", .any (.bool true), .str "x"]).run.run {} =
      (call .sprint [.any (.bool true), .str "x"]).run.run {} := by
  obtain ⟨hcompose, hspaced⟩ := formats_compose {}
  refine ⟨?_, (hspaced [.any (.bool true), .str "x"]).1⟩
  obtain ⟨t, u, hfirst, hsecond, hboth, ht, hu⟩ :=
    hcompose "%05.1f%-%|" "%v %v%" [.num 2.5] [.str "x"] (by decide)
  have hacyclic (v : Value) (hv : ∀ s, Value.Levels s 0 v) : ∀ x ∈ [v], x.Acyclic ({} : Machine).world.store :=
    List.forall_mem_singleton.2 (Value.acyclic_of_levels (hv _))
  obtain ⟨t, rfl⟩ := Option.isSome_iff_exists.1 (ht (hacyclic _ fun s => .num 2.5))
  obtain ⟨u, rfl⟩ := Option.isSome_iff_exists.1 (hu (hacyclic _ fun s => .str "x"))
  exact ⟨t, u, hfirst, hsecond, hboth⟩

end Builtin

end TinyScript
