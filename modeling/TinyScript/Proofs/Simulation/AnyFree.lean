import TinyScript.Proofs.Equality
import TinyScript.Proofs.Simulation.Mirrors
import TinyScript.Proofs.Typing.Values
import TinyScript.Stmt

/-!
# Programs without slots of type `any`

If `any` does not occur in a type, its values lie as deep as the type is (`HasType.levels`), so they have
no cycles. Such a value and its mirror image are equal to the same things (`Mirrors.equals_eq`), have the
same text (`Mirrors.display_eq`) and the same kinds at every level (`Mirrors.sameKinds`).
-/

namespace TinyScript

/-! ### Where `any` does not occur -/

/-- Whether `any` does not occur in a type. -/
def Ty.anyFree : Ty → Bool
  | leaf k _ => k != .any
  | of k _ e => k != .any && e.anyFree

mutual

/-- Whether `any` does not occur in the type of an expression in it. -/
def Expr.anyFree : Expr → Bool
  | .var m _ | .num m _ | .str m _ | .bool m _ => m.ty.anyFree
  | .array m _ elems => m.ty.anyFree && Expr.allAnyFree elems
  | .map m _ pairs => m.ty.anyFree && Expr.pairsAnyFree pairs
  | .call m _ args _ => m.ty.anyFree && Expr.allAnyFree args
  | .binary m _ _ left right | .index m left right => m.ty.anyFree && left.anyFree && right.anyFree
  | .slice m left start stop => m.ty.anyFree && left.anyFree && Expr.optionAnyFree start &&
      Expr.optionAnyFree stop
  | .unary m _ inner | .dot m inner _ | .group m inner | .assert m inner | .any m inner =>
    m.ty.anyFree && inner.anyFree

def Expr.allAnyFree : List Expr → Bool
  | [] => true
  | e :: es => e.anyFree && Expr.allAnyFree es

def Expr.pairsAnyFree : List (String × Expr) → Bool
  | [] => true
  | (_, e) :: es => e.anyFree && Expr.pairsAnyFree es

def Expr.optionAnyFree : Option Expr → Bool
  | none => true
  | some e => e.anyFree

end

def Range.anyFree : Range → Bool
  | .step start stop stride => Expr.optionAnyFree start && stop.anyFree && Expr.optionAnyFree stride
  | .over e => e.anyFree

mutual

/-- Whether `any` does not occur in the type of an expression or a variable of a statement. -/
def Stmt.anyFree : Stmt → Bool
  | .empty .. | .brk .. => true
  | .typedDecl _ _ var value | .inferredDecl _ _ var value => var.ty.anyFree && value.anyFree
  | .assign _ _ target value => target.anyFree && value.anyFree
  | .call _ _ _ args _ => Expr.allAnyFree args
  | .ret _ _ value => Expr.optionAnyFree value
  | .cond _ _ first more otherwise => Branch.anyFree first && Branch.allAnyFree more &&
      Block.lastAnyFree otherwise
  | .loop _ branch => Branch.anyFree branch
  | .each _ _ var range body => var.all (·.ty.anyFree) && range.anyFree && Block.anyFree body
  | .func _ _ signature body => signature.params.all (·.ty.anyFree) &&
      signature.variadic.all (·.ty.anyFree) && Block.anyFree body
  | .on _ _ _ params body => params.all (·.ty.anyFree) && Block.anyFree body

def Branch.anyFree : Branch → Bool
  | .mk _ _ test body => test.anyFree && Block.anyFree body

def Branch.allAnyFree : List Branch → Bool
  | [] => true
  | b :: bs => Branch.anyFree b && Branch.allAnyFree bs

def Block.lastAnyFree : Option Block → Bool
  | none => true
  | some b => Block.anyFree b

def Block.anyFree : Block → Bool
  | .mk _ _ stmts => Stmt.allAnyFree stmts

def Stmt.allAnyFree : List Stmt → Bool
  | [] => true
  | s :: ss => Stmt.anyFree s && Stmt.allAnyFree ss

end

/-- Whether `any` does not occur in the type of an expression or a variable of a program. -/
def Program.anyFree (p : Program) : Bool :=
  Stmt.allAnyFree p.stmts

theorem Ty.kind_ne_any {τ : Ty} (h : τ.anyFree) : τ.kind ≠ .any := by
  cases τ <;> simp_all [Ty.anyFree, Ty.kind]

theorem Expr.anyFree_ty {e : Expr} (h : e.anyFree) : e.ty.anyFree := by
  cases e <;> simp only [Expr.anyFree, Bool.and_eq_true] at h <;>
    first | exact h | exact h.1 | exact h.1.1 | exact h.1.1.1

/-! ### Levels -/

/-- The number of arrays and maps inside each other in values of a type. -/
def Ty.levels : Ty → Nat
  | leaf .. => 0
  | of _ _ e => e.levels + 1

theorem HasType.levels {Θ : StoreTy} {s : Store Value} {τ : Ty} {v : Value} (hs : StoreTyped Θ s)
    (hτ : τ.anyFree) (h : HasType Θ v τ) : v.Levels s τ.levels := by
  induction τ generalizing v with
  | leaf k f =>
    obtain ⟨hsame, hwf⟩ := h
    cases v with
    | num x => exact .num x
    | str t => exact .str t
    | bool b => exact .bool b
    | none => exact .none
    | any w => exact absurd (Ty.kind_eq_of_same hsame) (Ty.kind_ne_any hτ)
    | array r t =>
      obtain ⟨a, -, ht⟩ := hwf
      cases Ty.same_trans hsame ht
    | map r t =>
      obtain ⟨e, -, ht⟩ := hwf
      cases Ty.same_trans hsame ht
  | of k f e ih =>
    obtain ⟨hk, he⟩ := Bool.and_eq_true_iff.1 hτ
    cases v with
    | num | str | bool | none | any => cases h.same
    | array r t =>
      obtain ⟨a, ha, hsame⟩ := h.array_storage
      exact .array fun x hx => ih he ((hs.array r a ha x hx).of_same hsame)
    | map r t =>
      obtain ⟨e', he', hsame⟩ := h.map_storage
      exact .map fun key x hx => ih he ((hs.map r e' he' key x hx).of_same hsame)

theorem HasType.acyclic {Θ : StoreTy} {s : Store Value} {τ : Ty} {v : Value} (hs : StoreTyped Θ s)
    (hτ : τ.anyFree) (h : HasType Θ v τ) : v.Acyclic s :=
  Value.acyclic_of_levels (h.levels hs hτ)

end TinyScript

namespace TinyScript.Bytecode
open Value (Levels)

/-- A value of the evaluator and one of the machine are of the same kind, with as many elements or the
same keys, and so are their parts at every level. -/
inductive SameKinds (s : Store Value) (t : Store Cell) : Value → Cell → Prop where
  | num (x y : Float) : SameKinds s t (.num x) (.num y)
  | str (x y : String) : SameKinds s t (.str x) (.str y)
  | bool (a b : Bool) : SameKinds s t (.bool a) (.bool b)
  | array {r q : Nat} {ty : Ty} (hsize : (t.array q).size = (s.array r).size)
    (h : ∀ (i : Nat) v c, (s.array r)[i]? = some v → (t.array q)[i]? = some c → SameKinds s t v c) :
    SameKinds s t (.array r ty) (.array q)
  | map {r q : Nat} {ty : Ty} (hkeys : (t.map q).keys = (s.map r).keys)
    (h : ∀ key v c, (s.map r).get? key = some v → (t.map q).get? key = some c → SameKinds s t v c) :
    SameKinds s t (.map r ty) (.map q)

section
variable {s : Store Value} {t : Store Cell} {n f r r' : Nat} {v w : Value} {c d : Cell}
  {R : Value → Value → Prop} {R' : Cell → Cell → Prop}

theorem Reflects.sound (h : Reflects s t) : s.Sound :=
  fun ref => (h.map ref).sound

theorem Reflects.sound_right (h : Reflects s t) : t.Sound :=
  fun ref => (h.map ref).sound_right

/-! ### Equality -/

theorem forall₂_iff_of_mirrors (hR : ∀ v c w d, Mirrors v c → Mirrors w d → (R v w ↔ R' c d)) {vs ws : List Value}
    {cs ds : List Cell} (hv : List.Forall₂ Mirrors vs cs) (hw : List.Forall₂ Mirrors ws ds) :
    List.Forall₂ R vs ws ↔ List.Forall₂ R' cs ds := by
  induction hv generalizing ws ds with
  | nil =>
    cases hw with
    | nil => exact iff_of_true .nil .nil
    | cons => exact iff_of_false (fun h => by cases h) fun h => by cases h
  | cons hvc _ ih =>
    cases hw with
    | nil => exact iff_of_false (fun h => by cases h) fun h => by cases h
    | cons hwd hw => rw [List.forall₂_cons, List.forall₂_cons, hR _ _ _ _ hvc hwd, ih hw]

theorem MirrorPairs.matches_iff (hR : ∀ v c w d, Mirrors v c → Mirrors w d → (R v w ↔ R' c d)) {p p' : Pairs Value}
    {q q' : Pairs Cell} (h : MirrorPairs p q) (h' : MirrorPairs p' q') : p.Matches R p' ↔ q.Matches R' q' := by
  rw [Pairs.Matches, Pairs.Matches, h.size_eq, h'.size_eq]
  simp only [h.sound.mem_toList_iff, h.sound_right.mem_toList_iff]
  refine and_congr_right fun _ => forall_congr' fun key => ?_
  have hkey := h.get? key
  have hkey' := h'.get? key
  revert hkey hkey'
  cases p.get? key <;> cases q.get? key <;> rintro ⟨⟩
  · simp
  · next hvc =>
    cases p'.get? key <;> cases q'.get? key <;> rintro ⟨⟩
    · simp
    · next hwd => simp [hR _ _ _ _ hvc hwd]

theorem exists_of_mem_right {α β : Type} {S : α → β → Prop} {l : List α} {l' : List β} (h : List.Forall₂ S l l')
    {y : β} (hy : y ∈ l') : ∃ x ∈ l, S x y := by
  induction h with
  | nil => cases hy
  | cons hxy _ ih =>
    rcases List.mem_cons.1 hy with rfl | hy
    · exact ⟨_, List.mem_cons_self, hxy⟩
    · obtain ⟨x, hx, hxy⟩ := ih hy
      exact ⟨x, List.mem_cons_of_mem _ hx, hxy⟩

theorem mapM_congr {α α' β : Type} {S : α → α' → Prop} {f : α → Option β} {g : α' → Option β} {l : List α}
    {l' : List α'} (hl : List.Forall₂ S l l') (hfg : ∀ x y, S x y → f x = g y) : l.mapM f = l'.mapM g := by
  induction hl with
  | nil => rfl
  | cons hxy _ ih => rw [List.mapM_cons, List.mapM_cons, hfg _ _ hxy, ih]

section
variable (h : Reflects s t)
include h

theorem Mirrors.alike_iff (hR : ∀ v c w d, Mirrors v c → Mirrors w d → (R v w ↔ R' c d))
    (hsymm : ∀ c d, R' c d → R' d c) (hv : Mirrors v c) (hw : Mirrors w d) :
    Value.Alike s R v w ↔ Cell.Alike t R' c d := by
  have hturned : R' = fun x y => R' y x :=
    funext fun x => funext fun y => propext ⟨hsymm x y, hsymm y x⟩
  cases hv with
  | num x =>
    cases hw with
    | num y => exact ⟨fun h => by cases h with | num h => exact .num h, fun h => by cases h with | num h => exact .num h⟩
    | _ => exact iff_of_false (fun h => by cases h) fun h => by cases h
  | str x =>
    cases hw with
    | str y => exact ⟨fun h => by cases h; exact .str x, fun h => by cases h; exact .str x⟩
    | _ => exact iff_of_false (fun h => by cases h) fun h => by cases h
  | bool x =>
    cases hw with
    | bool y => exact ⟨fun h => by cases h; exact .bool x, fun h => by cases h; exact .bool x⟩
    | _ => exact iff_of_false (fun h => by cases h) fun h => by cases h
  | array r ty =>
    cases hw with
    | array r' ty' =>
      have hmatch : s.ArraysMatch R r r' ↔ t.ArraysMatch R' r r' :=
        or_congr_right (forall₂_iff_of_mirrors hR (h.array r) (h.array r'))
      constructor
      · intro halike
        cases halike with
        | array _ _ halike => exact .array (hmatch.1 halike)
      · intro halike
        cases halike with
        | array halike => exact .array ty ty' (hmatch.2 halike)
    | _ => exact iff_of_false (fun h => by cases h) fun h => by cases h
  | map r ty =>
    cases hw with
    | map r' ty' =>
      have hmatch : s.MapsMatch R r r' ↔ t.MapsMatch (fun x y => R' y x) r r' := by
        rw [← hturned]
        exact or_congr_right ((h.map r).matches_iff hR (h.map r'))
      constructor
      · intro halike
        cases halike with
        | map _ _ halike => exact .map (hmatch.1 halike)
      · intro halike
        cases halike with
        | map halike => exact .map ty ty' (hmatch.2 halike)
    | _ => exact iff_of_false (fun h => by cases h) fun h => by cases h

/-- Both equalities hold for the same values. -/
theorem Mirrors.equalsWithin_iff (hv : Mirrors v c) (hw : Mirrors w d) :
    v.equalsWithin s f w = some true ↔ c.equalsWithin t f d = some true := by
  induction f generalizing v c w d with
  | zero => exact iff_of_false (fun h => by cases h) fun h => by cases h
  | succ f ih =>
    rw [Value.equalsWithin_succ_iff, Cell.equalsWithin_succ_iff]
    exact Mirrors.alike_iff h (fun v c w d hv hw => ih hv hw)
      (fun c d => Cell.equalsWithin_symm h.sound_right) hv hw

theorem Mirrors.height (hv : Mirrors v c) (hheight : Height (Value.Inside s) n v) :
    Height (Cell.Contains t) n c := by
  induction hheight generalizing c with
  | intro _ ih =>
    refine .intro fun d hd => ?_
    cases hd with
    | @elem ref _ hd =>
      cases hv with
      | array _ ty =>
        obtain ⟨x, hx, hxd⟩ := exists_of_mem_right (h.array ref) hd
        exact ih x (.elem rfl hx) hxd
    | @field ref key _ hd =>
      cases hv with
      | map _ ty =>
        have hkey := (h.map ref).get? key
        rw [hd] at hkey
        generalize hx : (s.map ref).get? key = o at hkey
        cases hkey with
        | some hxd => exact ih _ (.field rfl hx) hxd

theorem Mirrors.equals_eq (hacyclic : v.Acyclic s) (hv : Mirrors v c) (hw : Mirrors w d) :
    v.equals s w = c.equals t d := by
  have hcell : (c.equals t d).isSome := by
    obtain ⟨b, hb⟩ := Option.isSome_iff_exists.1
      (Cell.equalsWithin_isSome (hv.height h (Value.height_inside hacyclic)) d).1
    rw [Cell.equals_eq_some_iff.2 ⟨_, hb⟩]
    rfl
  refine eq_of_eq_true_iff (Value.equals_isSome hacyclic w).1 hcell ?_
  rw [Value.equals, Cell.equals, h.size_eq]
  exact Mirrors.equalsWithin_iff h hv hw

/-! ### Text -/

theorem Mirrors.textWithin_eq (hv : Mirrors v c) : v.textWithin s false f = c.textWithin t f := by
  induction f generalizing v c with
  | zero => rfl
  | succ f ih =>
    cases hv with
    | num | str | bool => rfl
    | array r ty =>
      have helems := mapM_congr (h.array r) fun v c => ih (v := v) (c := c)
      rw [Value.textWithin, Cell.textWithin, Value.textBy, Cell.textBy, helems]
    | map r ty =>
      rw [Value.textWithin, Cell.textWithin, Value.textBy, Cell.textBy]
      refine congrArg (· >>= _) (mapM_congr (h.map r).toList ?_)
      rintro ⟨key, v⟩ ⟨key', c⟩ ⟨rfl, hvc⟩
      exact congrArg (Option.map _) (ih hvc)

theorem Mirrors.display_eq (hv : Mirrors v c) : v.display s = c.display t := by
  rw [Value.display, Cell.display, h.size_eq]
  exact hv.textWithin_eq h

/-! ### Kinds -/

theorem Mirrors.sameKinds (hlevels : Levels s n v) (hv : Mirrors v c) : SameKinds s t v c := by
  induction hlevels generalizing c with
  | num x | str x | bool x =>
    cases hv
    constructor
  | none => cases hv
  | any => cases hv
  | @array n r ty _ ih =>
    cases hv
    refine .array (h.size_array r) fun i v c hv hc => ?_
    have := h.getElem? r i
    rw [hv, hc] at this
    cases this with
    | some hvc => exact ih v (Array.mem_toList_iff.2 (Array.mem_of_getElem? hv)) hvc
  | @map n r ty _ ih =>
    cases hv
    refine .map (h.map r).keys fun key v c hv hc => ?_
    have := (h.map r).get? key
    rw [hv, hc] at this
    cases this with
    | some hvc => exact ih key v hv hvc

end

end

end TinyScript.Bytecode
