import TinyScript.Proofs.Typing.Operators

/-!
# Built-in functions are safe

A built-in function that gets arguments of the types in its signature has a result of the type there.
The two conversions also set the globals that tell whether they failed.
-/

namespace TinyScript

/-- A value is an argument for a parameter of type `p`. -/
def ArgTyped (Θ : StoreTy) (v : Value) (p : Ty) : Prop :=
  HasType Θ v p ∨ p.isGeneric ∧ ∃ τ, HasType Θ v τ ∧ τ.kind = p.kind

/-- Values are arguments for the parameters of a signature. -/
def ArgsTyped (Θ : StoreTy) (vs : List Value) (sig : Signature) : Prop :=
  match sig.variadic with
  | some x => ∀ v ∈ vs, ArgTyped Θ v x.ty
  | none => List.Forall₂ (ArgTyped Θ) vs (sig.params.map (·.ty))

section
variable {Θ : StoreTy} {G : Vars} {L : List Scoping} {args : List Value} {i : Nat} {v : Value} {p : Ty}

theorem ArgTyped.mono {Θ' : StoreTy} (hle : Θ ≤ Θ') (h : ArgTyped Θ v p) : ArgTyped Θ' v p :=
  h.imp (·.mono hle) fun ⟨hg, τ, h, hk⟩ => ⟨hg, τ, h.mono hle, hk⟩

theorem ArgTyped.hasType (h : ArgTyped Θ v p) (hp : p.isGeneric = false) : HasType Θ v p := by
  rcases h with h | ⟨hg, -⟩
  · exact h
  · rw [hp] at hg; cases hg

theorem ArgTyped.kind_eq (h : ArgTyped Θ v p) : v.kind = p.kind := by
  rcases h with h | ⟨-, τ, h, hk⟩
  · exact h.kind_eq.symm
  · exact h.kind_eq.symm.trans hk

namespace SafeIn

/-! ### Arguments -/

theorem numArg (hi : args[i]? = some v) (hv : ArgTyped Θ v .num) :
    Safe Θ G L (Eval.numArg args i) fun _ _ => True := by
  obtain ⟨x, rfl⟩ := (hv.hasType rfl).num_inv rfl
  unfold Eval.numArg Eval.arg
  rw [hi]
  exact pure trivial

theorem strArg (hi : args[i]? = some v) (hv : ArgTyped Θ v .string) :
    Safe Θ G L (Eval.strArg args i) fun _ _ => True := by
  obtain ⟨s, rfl⟩ := (hv.hasType rfl).str_inv rfl
  unfold Eval.strArg Eval.arg
  rw [hi]
  exact pure trivial

theorem arrayArg (hi : args[i]? = some v) (hv : ArgTyped Θ v .anyArray) :
    Safe Θ G L (Eval.arrayArg args i) fun _ _ => True := by
  have hk := hv.kind_eq
  cases v with
  | array ref t =>
    unfold Eval.arrayArg Eval.arg
    rw [hi]
    show Safe Θ G L (Eval.store >>= fun s => Pure.pure (s.array ref)) _
    exact store.andThen fun _ _ _ _ => pure trivial
  | num | str | bool | any | map | none => cases hk

theorem mapArg (hi : args[i]? = some v) (hv : ArgTyped Θ v .anyMap) :
    Safe Θ G L (Eval.mapArg args i) fun _ _ => True := by
  have hk := hv.kind_eq
  cases v with
  | map ref t =>
    unfold Eval.mapArg Eval.arg
    rw [hi]
    exact pure trivial
  | num | str | bool | any | array | none => cases hk

theorem numArgs (h : ∀ v ∈ args, ArgTyped Θ v .num) :
    Safe Θ G L (Eval.numArgs args) fun _ _ => True := by
  unfold Eval.numArgs
  have hlt : ∀ i ∈ List.range args.length, i < args.length := fun i hi => List.mem_range.1 hi
  generalize List.range args.length = is at hlt
  -- over the places that are left to read
  induction is generalizing Θ with
  | nil => exact pure trivial
  | cons i is ih =>
    rw [List.mapM_cons]
    have hi := hlt i List.mem_cons_self
    refine (numArg (List.getElem?_eq_getElem hi) (h _ (List.getElem_mem hi))).andThen
      fun Θ' x hle _ => ?_
    refine (ih (fun v hv => (h v hv).mono hle) fun j hj => hlt j (List.mem_cons_of_mem i hj)).andThen
      fun _ _ _ _ => pure trivial

theorem formatArg (func : String) : Safe Θ G L (Eval.formatArg func args) fun _ _ => True := by
  unfold Eval.formatArg
  split
  · exact fail rfl
  · exact pure trivial
  · exact fail rfl

/-! ### Parts of functions -/

variable {v₁ v₂ v₃ : Value}

theorem onText (f : List Char → List Char) (h : ArgTyped Θ v .string) (vs : List Value) :
    Safe Θ G L (Builtin.onText f (v :: vs)) fun Θ' u => HasType Θ' u .string :=
  (strArg rfl h).andThen fun _ _ _ _ => pure (.str rfl _)

theorem onNum (f : Float → Float) (h : ArgTyped Θ v .num) :
    Safe Θ G L (Builtin.onNum f [v]) fun Θ' u => HasType Θ' u .num :=
  (numArg rfl h).andThen fun _ _ _ _ => pure (.num rfl _)

theorem onNums (f : Float → Float → Float) (h₁ : ArgTyped Θ v₁ .num) (h₂ : ArgTyped Θ v₂ .num) :
    Safe Θ G L (Builtin.onNums f [v₁, v₂]) fun Θ' u => HasType Θ' u .num :=
  (numArg rfl h₁).andThen fun _ _ hle _ => (numArg rfl (h₂.mono hle)).andThen
    fun _ _ _ _ => pure (.num rfl _)

theorem drawn (c : HostCall) : Safe Θ G L (Builtin.drawn c) fun Θ' u => HasType Θ' u .none :=
  (ask c).andThen fun _ _ _ _ => pure (.none rfl)

theorem drawNum (c : Float → HostCall) (h : ArgTyped Θ v .num) :
    Safe Θ G L (Builtin.drawNum c [v]) fun Θ' u => HasType Θ' u .none :=
  (numArg rfl h).andThen fun _ _ _ _ => drawn _

theorem drawNums (c : Float → Float → HostCall) (h₁ : ArgTyped Θ v₁ .num)
    (h₂ : ArgTyped Θ v₂ .num) :
    Safe Θ G L (Builtin.drawNums c [v₁, v₂]) fun Θ' u => HasType Θ' u .none :=
  (numArg rfl h₁).andThen fun _ _ hle _ => (numArg rfl (h₂.mono hle)).andThen
    fun _ _ _ _ => drawn _

theorem drawText (c : String → HostCall) (h : ArgTyped Θ v .string) :
    Safe Θ G L (Builtin.drawText c [v]) fun Θ' u => HasType Θ' u .none :=
  (strArg rfl h).andThen fun _ _ _ _ => drawn _

theorem formatted (func : String) :
    Safe Θ G L (Builtin.formatted func args) fun _ _ => True :=
  (formatArg func).andThen fun _ _ _ _ => store.andThen fun _ _ _ _ => (answered _).weaken fun _ _ _ _ => trivial

theorem spaced : Safe Θ G L (Builtin.spaced args) fun _ _ => True :=
  store.andThen fun _ _ _ _ => (answered _).weaken fun _ _ _ _ => trivial

theorem noteError (hG : NotesErrors G) (message : Option String) :
    Safe Θ G L (Builtin.noteError message) fun _ _ => True :=
  modifyFrames fun _ hfs => ⟨(hfs.globals.insert hG.err (.bool rfl _)).insert hG.errmsg (.str rfl _),
    hfs.locals⟩

theorem converted (hG : NotesErrors G) (b : Builtin) (h : ArgTyped Θ v .string)
    {convert : String → Option Value} {missing : Value}
    (hc : ∀ Θ' s u, convert s = some u → HasType Θ' u p) (hm : ∀ Θ', HasType Θ' missing p) :
    Safe Θ G L (Builtin.converted b convert missing [v]) fun Θ' u => HasType Θ' u p := by
  refine (strArg rfl h).andThen fun _ s _ _ => ?_
  split
  · next u hu => exact (noteError hG _).andThen fun Θ' _ _ _ => pure (hc Θ' s u hu)
  · exact (noteError hG _).andThen fun Θ' _ _ _ => pure (hm Θ')

theorem length : Safe Θ G L (Builtin.length [v]) fun Θ' u => HasType Θ' u .num := by
  have harg : Eval.arg [v] 0 = Pure.pure v.unwrap := rfl
  unfold Builtin.length
  rw [harg, pure_bind]
  split
  · exact store.andThen fun _ _ _ _ => pure (.num rfl _)
  · exact store.andThen fun _ _ _ _ => pure (.num rfl _)
  · exact pure (.num rfl _)
  · exact fail rfl

theorem randomBelow (h : ArgTyped Θ v .num) :
    Safe Θ G L (Builtin.randomBelow [v]) fun Θ' u => HasType Θ' u .num := by
  refine (numArg rfl h).andThen fun _ upper _ _ => ?_
  split
  · exact (randomly _).andThen fun _ _ _ _ => pure (.num rfl _)
  · exact fail rfl

theorem vertices (i : Nat) (h : ∀ v ∈ args, ArgTyped Θ v (.array .num)) :
    Safe Θ G L (Builtin.vertices i args) fun _ _ => True := by
  induction args generalizing Θ i with
  | nil => exact pure trivial
  | cons v args ih =>
    have hv := (h v List.mem_cons_self).hasType rfl
    obtain ⟨ref, t, rfl⟩ := hv.array_inv rfl
    obtain ⟨a, ha, hsame⟩ := hv.array_storage
    refine store.andThen fun Θ' s hle ⟨hΘ, hs⟩ => ?_
    subst hΘ
    have helems : ∀ u ∈ (s.array ref).toList, ArgTyped Θ' u .num :=
      fun u hu => .inl ((hs.array ref a ha u hu).of_same hsame)
    generalize (s.array ref).toList = elems at helems
    dsimp only
    split
    · exact fail_bind rfl
    · next hlen =>
      obtain ⟨x, y, rfl⟩ := List.length_eq_two.1 (not_not.1 hlen)
      refine (numArg rfl (helems x (by simp))).andThen fun Θ₁ _ hle₁ _ => ?_
      refine (numArg rfl ((helems y (by simp)).mono hle₁)).andThen fun Θ₂ _ hle₂ _ => ?_
      have hle := StoreTy.le_trans hle₁ hle₂
      exact (ih (i + 1) fun v hv => (h v (List.mem_cons_of_mem _ hv)).mono hle).andThen
        fun _ _ _ _ => pure trivial

theorem drawEllipse (h : ∀ v ∈ args, ArgTyped Θ v .num) :
    Safe Θ G L (Builtin.drawEllipse args) fun Θ' u => HasType Θ' u .none := by
  unfold Builtin.drawEllipse
  dsimp only
  split
  · exact fail_bind rfl
  · refine (numArgs h).andThen fun _ xs _ _ => ?_
    split
    · exact drawn _
    · exact drawn _
    · exact drawn _
    · exact drawn _
    · exact fail rfl

theorem drawClear (h : ∀ v ∈ args, ArgTyped Θ v .string) :
    Safe Θ G L (Builtin.drawClear args) fun Θ' u => HasType Θ' u .none := by
  unfold Builtin.drawClear
  dsimp only
  split
  · exact fail_bind rfl
  · match args with
    | [] => exact drawn _
    | [v] => exact drawText _ (h v (by simp))
    | _ :: _ :: _ => next hlen => simp at hlen

theorem setFont (h : ArgTyped Θ v .anyMap) :
    Safe Θ G L (Builtin.setFont [v]) fun Θ' u => HasType Θ' u .none := by
  refine (mapArg rfl h).andThen fun _ ref _ _ => store.andThen fun _ s _ _ => ?_
  split
  · exact drawn _
  · exact fail rfl

end SafeIn

/-! ### Calls -/

section
variable {q r : Ty}

theorem forall₂_nil {R : Value → Ty → Prop} (h : List.Forall₂ R args []) : args = [] :=
  List.forall₂_nil_right_iff.1 h

theorem forall₂_one {R : Value → Ty → Prop} (h : List.Forall₂ R args [p]) :
    ∃ v, args = [v] ∧ R v p := by
  obtain ⟨v, vs, hv, hvs, rfl⟩ := List.forall₂_cons_right_iff.1 h
  cases forall₂_nil hvs
  exact ⟨v, rfl, hv⟩

theorem forall₂_two {R : Value → Ty → Prop} (h : List.Forall₂ R args [p, q]) :
    ∃ v w, args = [v, w] ∧ R v p ∧ R w q := by
  obtain ⟨v, vs, hv, hvs, rfl⟩ := List.forall₂_cons_right_iff.1 h
  obtain ⟨w, rfl, hw⟩ := forall₂_one hvs
  exact ⟨v, w, rfl, hv, hw⟩

theorem forall₂_three {R : Value → Ty → Prop} (h : List.Forall₂ R args [p, q, r]) :
    ∃ u v w, args = [u, v, w] ∧ R u p ∧ R v q ∧ R w r := by
  obtain ⟨u, vs, hu, hvs, rfl⟩ := List.forall₂_cons_right_iff.1 h
  obtain ⟨v, w, rfl, hv, hw⟩ := forall₂_two hvs
  exact ⟨u, v, w, rfl, hu, hv, hw⟩

end

/-- A call of a built-in function. -/
theorem SafeIn.callBuiltin (hG : NotesErrors G) (b : Builtin) (h : ArgsTyped Θ args b.signature) :
    Safe Θ G L (b.call args) fun Θ' v => HasType Θ' v b.result := by
  cases b with
  -- without arguments
  | read => exact readLine.andThen fun _ _ _ _ => pure (.str rfl _)
  | cls => exact drawn _
  | rand1 => exact (randomly _).andThen fun _ _ _ _ => pure (.num rfl _)
  | grid => exact drawn _
  -- with any number of arguments
  | print => exact spaced.andThen fun _ _ _ _ => drawn _
  | printf => exact (formatted _).andThen fun _ _ _ _ => drawn _
  | sprint => exact spaced.andThen fun _ _ _ _ => pure (.str rfl _)
  | sprintf => exact (formatted _).andThen fun _ _ _ _ => pure (.str rfl _)
  | clear => exact drawClear h
  | poly => exact (vertices 1 h).andThen fun _ _ _ _ => drawn _
  | ellipse => exact drawEllipse h
  | dash => exact (numArgs h).andThen fun _ _ _ _ => drawn _
  -- on texts
  | upper | lower =>
    obtain ⟨v, rfl, hv⟩ := forall₂_one (p := .string) h
    exact onText _ hv []
  | color | colour | stroke | fill | linecap | text =>
    obtain ⟨v, rfl, hv⟩ := forall₂_one (p := .string) h
    exact drawText _ hv
  | panic =>
    obtain ⟨v, rfl, hv⟩ := forall₂_one (p := .string) h
    exact (strArg rfl hv).andThen fun _ _ _ _ => fail rfl
  | strToNum =>
    obtain ⟨v, rfl, hv⟩ := forall₂_one (p := .string) h
    refine converted hG _ hv (fun Θ' s u hu => ?_) fun Θ' => .num rfl _
    obtain ⟨x, -, rfl⟩ := Option.map_eq_some_iff.1 hu
    exact .num rfl x
  | strToBool =>
    obtain ⟨v, rfl, hv⟩ := forall₂_one (p := .string) h
    refine converted hG _ hv (fun Θ' s u hu => ?_) fun Θ' => .bool rfl _
    obtain ⟨x, -, rfl⟩ := Option.map_eq_some_iff.1 hu
    exact .bool rfl x
  | split =>
    obtain ⟨v, w, rfl, hv, hw⟩ := forall₂_two (p := .string) (q := .string) h
    refine (strArg rfl hv).andThen fun _ s hle _ => (strArg rfl (hw.mono hle)).andThen
      fun Θ' sep _ _ => ?_
    refine (newArray (a := ⟨.string, false, fun h => by cases h⟩) rfl ?_ (fun h => by cases h)).weaken
      fun _ _ _ hu => hu.1
    intro u hu
    obtain ⟨cs, -, rfl⟩ := List.mem_map.1 (by simpa using hu)
    exact .str rfl _
  | index =>
    obtain ⟨v, w, rfl, hv, hw⟩ := forall₂_two (p := .string) (q := .string) h
    exact (strArg rfl hv).andThen fun _ _ hle _ => (strArg rfl (hw.mono hle)).andThen
      fun _ _ _ _ => pure (.num rfl _)
  | startsWith | endsWith =>
    obtain ⟨v, w, rfl, hv, hw⟩ := forall₂_two (p := .string) (q := .string) h
    exact (strArg rfl hv).andThen fun _ _ hle _ => (strArg rfl (hw.mono hle)).andThen
      fun _ _ _ _ => pure (.bool rfl _)
  | trim =>
    obtain ⟨v, w, rfl, hv, hw⟩ := forall₂_two (p := .string) (q := .string) h
    exact (strArg rfl hw).andThen fun _ _ hle _ => onText _ (hv.mono hle) [w]
  | replace =>
    obtain ⟨u, v, w, rfl, hu, hv, hw⟩ := forall₂_three (p := .string) (q := .string) (r := .string) h
    refine (strArg rfl hu).andThen fun _ _ hle _ => (strArg rfl (hv.mono hle)).andThen
      fun _ _ hle' _ => (strArg rfl (hw.mono (StoreTy.le_trans hle hle'))).andThen
      fun _ _ _ _ => pure (.str rfl _)
  -- on numbers
  | rand =>
    obtain ⟨v, rfl, hv⟩ := forall₂_one (p := .num) h
    exact randomBelow hv
  | floor | ceil | round | log | sqrt | sin | cos =>
    obtain ⟨v, rfl, hv⟩ := forall₂_one (p := .num) h
    exact onNum _ hv
  | min | max | pow | atan2 =>
    obtain ⟨v, w, rfl, hv, hw⟩ := forall₂_two (p := .num) (q := .num) h
    exact onNums _ hv hw
  | sleep | circle | width =>
    obtain ⟨v, rfl, hv⟩ := forall₂_one (p := .num) h
    exact drawNum _ hv
  | move | line | rect =>
    obtain ⟨v, w, rfl, hv, hw⟩ := forall₂_two (p := .num) (q := .num) h
    exact drawNums _ hv hw
  | exit =>
    obtain ⟨v, rfl, hv⟩ := forall₂_one (p := .num) h
    exact (numArg rfl hv).andThen fun _ _ _ _ => fail rfl
  | gridn =>
    obtain ⟨v, w, rfl, hv, hw⟩ := forall₂_two (p := .num) (q := .string) h
    exact (numArg rfl hv).andThen fun _ _ hle _ => (strArg rfl (hw.mono hle)).andThen
      fun _ _ _ _ => drawn _
  -- on values
  | typeName =>
    obtain ⟨v, rfl, hv⟩ := forall₂_one (p := .any) h
    exact pure (.str rfl _)
  | len =>
    obtain ⟨v, rfl, hv⟩ := forall₂_one (p := .any) h
    exact length
  | join =>
    obtain ⟨v, w, rfl, hv, hw⟩ := forall₂_two (p := .anyArray) (q := .string) h
    exact (arrayArg rfl hv).andThen fun _ _ hle _ => (strArg rfl (hw.mono hle)).andThen
      fun _ _ _ _ => store.andThen fun _ _ _ _ => (answered _).andThen fun _ _ _ _ => pure (.str rfl _)
  | has =>
    obtain ⟨v, w, rfl, hv, hw⟩ := forall₂_two (p := .anyMap) (q := .string) h
    exact (mapArg rfl hv).andThen fun _ _ hle _ => (strArg rfl (hw.mono hle)).andThen
      fun _ _ _ _ => store.andThen fun _ _ _ _ => pure (.bool rfl _)
  | del =>
    obtain ⟨v, w, rfl, hv, hw⟩ := forall₂_two (p := .anyMap) (q := .string) h
    refine (mapArg rfl hv).andThen fun _ ref hle _ => (strArg rfl (hw.mono hle)).andThen
      fun _ key _ _ => (modifyStore fun s hs => ?_).andThen fun _ _ _ _ => pure (.none rfl)
    exact hs.modifyMap fun e he k u hu => hs.map ref e he k u (Pairs.get?_of_get?_erase hu)
  | font =>
    obtain ⟨v, rfl, hv⟩ := forall₂_one (p := .anyMap) h
    exact setFont hv

end

end TinyScript
