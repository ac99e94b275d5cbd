import TinyScript.Proofs.Equality
import TinyScript.Proofs.Typing.Values
import TinyScript.Session

/-!
# Equality with and without types

The stack machine has values without types: `Value.erase` takes the types and the wrappers of slots of
type `any` away, and leaves storage shared as it is. Its equality is that of the values with types,
except where a comparison comes to slots of type `any` with values of different types, to a value in such
a slot and one that is in none, or to values that are missing (`Value.Agrees`). The machine cannot tell
the former apart, and takes missing values to be equal.

Nothing is asked of the types of storage: a slice of an array keeps its elements as they are, so that an
array of type `[]any` can hold values that are in no slot of type `any`.
-/

namespace TinyScript

open Bytecode (Cell)

/-! ### Erasure -/

/-- The pairs with other values. -/
def Pairs.mapValues {α β : Type} (f : α → β) (p : Pairs α) : Pairs β :=
  ⟨p.order, p.values.map fun _ => f⟩

/-- The storage with other values. -/
def Store.mapValues {α β : Type} (f : α → β) (s : Store α) : Store β :=
  ⟨s.arrays.map (·.map f), s.maps.map (·.mapValues f)⟩

/-- The value without types and wrappers. -/
def Value.erase : Value → Cell
  | .num x => .num x
  | .str t => .str t
  | .bool b => .bool b
  | .any v => v.erase
  | .array r _ => .array r
  | .map r _ => .map r
  | .none => .none

/-- The storage for values without types. -/
def Store.erase (s : Store Value) : Store Cell :=
  s.mapValues Value.erase

section
variable {α β : Type} (f : α → β)

namespace Pairs
variable (p : Pairs α)

@[simp] theorem get?_mapValues (k : String) : (p.mapValues f).get? k = (p.get? k).map f := by
  simp [get?, mapValues]

@[simp] theorem size_mapValues : (p.mapValues f).size = p.size := rfl

@[simp] theorem toList_mapValues : (p.mapValues f).toList = p.toList.map fun (k, v) => (k, f v) := by
  show p.order.toList.filterMap (fun k => ((p.mapValues f).get? k).map (k, ·)) = _
  simp only [toList, keys, get?_mapValues, List.map_filterMap, Option.map_map]
  rfl

theorem Sound.mapValues {p : Pairs α} (h : p.Sound) : (p.mapValues f).Sound where
  nodup := h.nodup
  mem_keys key := by
    rw [contains_iff, get?_mapValues, ← Option.isSome_iff_exists, Option.isSome_map, Option.isSome_iff_exists,
      ← contains_iff]
    exact h.mem_keys key

end Pairs

namespace Store
variable (s : Store α)

@[simp] theorem size_mapValues : (s.mapValues f).size = s.size := by
  simp [size, mapValues]

@[simp] theorem array_mapValues (r : Nat) : (s.mapValues f).array r = (s.array r).map f := by
  simp only [array, mapValues, Array.getElem?_map]
  cases s.arrays[r]? <;> simp

@[simp] theorem get?_map_mapValues (r : Nat) (k : String) :
    ((s.mapValues f).map r).get? k = ((s.map r).get? k).map f := by
  simp only [map, mapValues, Array.getElem?_map]
  cases s.maps[r]? <;> simp

@[simp] theorem size_map_mapValues (r : Nat) : ((s.mapValues f).map r).size = (s.map r).size := by
  simp only [map, mapValues, Array.getElem?_map]
  cases s.maps[r]? <;> rfl

@[simp] theorem toList_map_mapValues (r : Nat) :
    ((s.mapValues f).map r).toList = (s.map r).toList.map fun (k, v) => (k, f v) := by
  simp only [map, mapValues, Array.getElem?_map]
  cases s.maps[r]? with
  | none => rfl
  | some p => exact p.toList_mapValues f

theorem Sound.mapValues {s : Store α} (h : s.Sound) : (s.mapValues f).Sound := by
  intro r
  have hr := h r
  simp only [map, Store.mapValues, Array.getElem?_map] at hr ⊢
  cases hp : s.maps[r]? with
  | none => exact .empty
  | some p =>
    rw [hp] at hr
    exact hr.mapValues f

end Store

end

/-! ### What a comparison comes to -/

namespace Value
variable {s : Store Value} {a b : Value}

/-- Where the comparison of two values looks at their parts, it compares `x` with `y`. It does not
look into an array or a map that it compares with itself. -/
inductive Compares (s : Store Value) (x y : Value) : Value → Value → Prop where
  | here : Compares s x y x y
  | any {a b : Value} (h : Compares s x y a b) : Compares s x y (.any a) (.any b)
  | elem {r r' : Nat} {t t' : Ty} {a b : Value} (hne : r ≠ r') (hab : (a, b) ∈ s.elemPairs r r')
    (h : Compares s x y a b) : Compares s x y (.array r t) (.array r' t')
  | field {r r' : Nat} {k : String} {t t' : Ty} {a b : Value} (hne : r ≠ r')
    (ha : (k, a) ∈ (s.map r).toList) (hb : (s.map r').get? k = some b) (h : Compares s x y a b) :
    Compares s x y (.map r t) (.map r' t')

/-- A comparison comes to values in slots of type `any` only together, and only if they are of the same
type, and does not come to two values that are missing, such as the results of functions that return
nothing. -/
structure Agrees (s : Store Value) (a b : Value) : Prop where
  wrapped : ∀ x y, Compares s x y a b → (x.kind = .any ↔ y.kind = .any)
  any : ∀ x y, Compares s (.any x) (.any y) a b → x.typeOf.same y.typeOf
  none : ¬ Compares s .none .none a b

theorem Agrees.of_compares (h : a.Agrees s b) {a' b' : Value}
    (hc : ∀ x y, Compares s x y a' b' → Compares s x y a b) : a'.Agrees s b' :=
  ⟨fun x y hxy => h.wrapped x y (hc _ _ hxy), fun x y hxy => h.any x y (hc _ _ hxy),
    fun hnone => h.none (hc _ _ hnone)⟩

/-- What a comparison comes to is the two values themselves, or parts of them that agree. -/
theorem agrees_of_parts (hwrapped : a.kind = .any ↔ b.kind = .any)
    (hany : ∀ x y, a = .any x → b = .any y → x.typeOf.same y.typeOf) (hnone : a = .none → b ≠ .none)
    (hparts : ∀ x y, Compares s x y a b → (x = a ∧ y = b) ∨ ∃ a' b', a'.Agrees s b' ∧ Compares s x y a' b') :
    a.Agrees s b := by
  refine ⟨fun x y h => ?_, fun x y h => ?_, fun h => ?_⟩
  · rcases hparts x y h with ⟨rfl, rfl⟩ | ⟨a', b', hagrees, h⟩
    · exact hwrapped
    · exact hagrees.wrapped x y h
  · rcases hparts _ _ h with ⟨ha, hb⟩ | ⟨a', b', hagrees, h⟩
    · exact hany x y ha.symm hb.symm
    · exact hagrees.any x y h
  · rcases hparts _ _ h with ⟨ha, hb⟩ | ⟨a', b', hagrees, h⟩
    · exact hnone ha.symm hb.symm
    · exact hagrees.none h

theorem agrees_any : (Value.any a).Agrees s (.any b) ↔ a.typeOf.same b.typeOf ∧ a.Agrees s b := by
  refine ⟨fun h => ⟨h.any a b .here, h.of_compares fun _ _ => .any⟩, fun ⟨hsame, h⟩ => ?_⟩
  refine agrees_of_parts Iff.rfl ?_ (fun heq => by cases heq) fun x y hxy => ?_
  · rintro x y heq heq'
    cases heq
    cases heq'
    exact hsame
  · cases hxy with
    | here => exact .inl ⟨rfl, rfl⟩
    | any hxy => exact .inr ⟨a, b, h, hxy⟩

variable {r r' : Nat} {t t' : Ty}

theorem agrees_array : (Value.array r t).Agrees s (.array r' t') ↔
    (r ≠ r' → ∀ a b, (a, b) ∈ s.elemPairs r r' → a.Agrees s b) := by
  refine ⟨fun h hne a b hab => h.of_compares fun _ _ => .elem hne hab, fun h => ?_⟩
  refine agrees_of_parts (iff_of_false (fun heq => by cases heq) fun heq => by cases heq)
    (fun x y heq => by cases heq) (fun heq => by cases heq) fun x y hxy => ?_
  cases hxy with
  | here => exact .inl ⟨rfl, rfl⟩
  | elem hne hab hxy => exact .inr ⟨_, _, h hne _ _ hab, hxy⟩

theorem agrees_map : (Value.map r t).Agrees s (.map r' t') ↔
    (r ≠ r' → ∀ k a b, (k, a) ∈ (s.map r).toList → (s.map r').get? k = some b → a.Agrees s b) := by
  refine ⟨fun h hne k a b ha hb => h.of_compares fun _ _ => .field hne ha hb, fun h => ?_⟩
  refine agrees_of_parts (iff_of_false (fun heq => by cases heq) fun heq => by cases heq)
    (fun x y heq => by cases heq) (fun heq => by cases heq) fun x y hxy => ?_
  cases hxy with
  | here => exact .inl ⟨rfl, rfl⟩
  | field hne ha hb hxy => exact .inr ⟨_, _, h hne _ _ _ ha hb, hxy⟩

/-- Numbers, texts and truth values have no parts to compare. -/
theorem agrees_of_leaf (hwrapped : a.kind = .any ↔ b.kind = .any) (ha : a.kind ≠ .any) (hnone : a ≠ .none)
    (href : a.ref? = Option.none) : a.Agrees s b := by
  refine agrees_of_parts hwrapped (fun x y heq => absurd (by rw [heq]; rfl) ha) (fun heq => absurd heq hnone)
    fun x y hxy => ?_
  cases hxy with
  | here => exact .inl ⟨rfl, rfl⟩
  | any => exact absurd rfl ha
  | elem | field => cases href

theorem not_agrees_none : ¬ Value.none.Agrees s .none :=
  fun h => h.none .here

/-! ### Both equalities -/

theorem elemPairs_erase (s : Store Value) (r r' : Nat) :
    s.erase.elemPairs r r' = (s.elemPairs r r').map fun pair => (pair.1.erase, pair.2.erase) := by
  rw [Store.elemPairs, Store.erase, Store.array_mapValues, Store.array_mapValues, Array.toList_map,
    Array.toList_map, List.zip_map]
  rfl

variable {R : Value → Value → Prop} {R' : Cell → Cell → Prop}
  (hR : ∀ x y, R x y ↔ R' x.erase y.erase ∧ x.Agrees s y)
include hR

theorem arraysMatch_iff_erase : s.ArraysMatch R r r' ↔
    s.erase.ArraysMatch R' r r' ∧ (r ≠ r' → ∀ a b, (a, b) ∈ s.elemPairs r r' → a.Agrees s b) := by
  unfold Store.ArraysMatch
  by_cases hr : r = r'
  · exact iff_of_true (.inl hr) ⟨.inl hr, fun hne => absurd hr hne⟩
  · have hsize (ref : Nat) : (s.erase.array ref).toList.length = (s.array ref).toList.length := by
      simp [Store.erase]
    have hzip : ∀ {x : Cell × Cell}, x ∈ (s.erase.array r).toList.zip (s.erase.array r').toList ↔
        ∃ pair ∈ s.elemPairs r r', (pair.1.erase, pair.2.erase) = x := by
      intro x
      rw [← List.mem_map, ← elemPairs_erase]
      rfl
    rw [or_iff_right hr, or_iff_right hr, List.forall₂_iff_zip, List.forall₂_iff_zip, hsize, hsize, and_assoc]
    refine and_congr_right fun _ => ⟨fun h => ⟨fun {c d} hcd => ?_, fun _ a b hab => ?_⟩, fun hs a b hab => ?_⟩
    · obtain ⟨pair, hpair, heq⟩ := hzip.1 hcd
      cases heq
      exact ((hR _ _).1 (h hpair)).1
    · exact ((hR _ _).1 (h hab)).2
    · obtain ⟨h, h'⟩ := hs
      exact (hR a b).2 ⟨h (hzip.2 ⟨(a, b), hab, rfl⟩), h' hr a b hab⟩

theorem mapsMatch_iff_erase : s.MapsMatch R r r' ↔ s.erase.MapsMatch R' r r' ∧
    (r ≠ r' → ∀ k a b, (k, a) ∈ (s.map r).toList → (s.map r').get? k = some b → a.Agrees s b) := by
  unfold Store.MapsMatch
  by_cases hr : r = r'
  · exact iff_of_true (.inl hr) ⟨.inl hr, fun hne => absurd hr hne⟩
  · rw [or_iff_right hr, or_iff_right hr, Pairs.Matches, Pairs.Matches, Store.erase, Store.size_map_mapValues,
      Store.size_map_mapValues, Store.toList_map_mapValues, and_assoc]
    refine and_congr_right fun _ => ⟨fun h => ⟨fun k c hc => ?_, fun _ k a b ha hb => ?_⟩, fun hs k a ha => ?_⟩
    · obtain ⟨⟨k', a⟩, ha, heq⟩ := List.mem_map.1 hc
      cases heq
      obtain ⟨b, hb, hab⟩ := h k a ha
      exact ⟨b.erase, by rw [Store.get?_map_mapValues, hb]; rfl, ((hR a b).1 hab).1⟩
    · obtain ⟨b', hb', hab⟩ := h k a ha
      cases hb.symm.trans hb'
      exact ((hR a b).1 hab).2
    · obtain ⟨h, h'⟩ := hs
      obtain ⟨c, hc, hac⟩ := h k a.erase (List.mem_map.2 ⟨(k, a), ha, rfl⟩)
      rw [Store.get?_map_mapValues] at hc
      obtain ⟨b, hb, rfl⟩ := Option.map_eq_some_iff.1 hc
      exact ⟨b, hb, (hR a b).2 ⟨hac, h' hr k a b ha hb⟩⟩

/-- One level of a comparison with types is one without them that comes to nothing which the machine sees
otherwise. -/
theorem alike_iff_erase (hsymm : ∀ c d, R' c d → R' d c) :
    Alike s R a b ↔ Cell.Alike s.erase R' a.erase b.erase ∧ a.Agrees s b := by
  have hfields : s.erase.MapsMatch R' = s.erase.MapsMatch fun x y => R' y x :=
    congrArg _ (funext fun x => funext fun y => propext ⟨hsymm x y, hsymm y x⟩)
  induction a generalizing b with
  | any x ih =>
    cases b with
    | any y =>
      have halike : Alike s R (.any x) (.any y) ↔ x.typeOf.same y.typeOf ∧ Alike s R x y :=
        ⟨fun h => by cases h with | any hty h => exact ⟨hty, h⟩, fun h => .any h.1 h.2⟩
      rw [halike, agrees_any, and_left_comm]
      exact and_congr_right fun _ => ih
    | _ => exact iff_of_false (fun h => by cases h) fun h => by cases (h.2.wrapped _ _ .here).1 rfl
  | num x =>
    cases b with
    | num y =>
      have hagrees : (Value.num x).Agrees s (.num y) :=
        agrees_of_leaf Iff.rfl (fun heq => by cases heq) (fun heq => by cases heq) rfl
      rw [and_iff_left hagrees]
      exact ⟨fun h => by cases h with | num h => exact .num h, fun h => by cases h with | num h => exact .num h⟩
    | any => exact iff_of_false (fun h => by cases h) fun h => by cases (h.2.wrapped _ _ .here).2 rfl
    | _ => exact iff_of_false (fun h => by cases h) fun h => by cases h.1
  | str x =>
    cases b with
    | str y =>
      have hagrees : (Value.str x).Agrees s (.str y) :=
        agrees_of_leaf Iff.rfl (fun heq => by cases heq) (fun heq => by cases heq) rfl
      rw [and_iff_left hagrees]
      exact ⟨fun h => by cases h; exact .str x, fun h => by cases h; exact .str x⟩
    | any => exact iff_of_false (fun h => by cases h) fun h => by cases (h.2.wrapped _ _ .here).2 rfl
    | _ => exact iff_of_false (fun h => by cases h) fun h => by cases h.1
  | bool x =>
    cases b with
    | bool y =>
      have hagrees : (Value.bool x).Agrees s (.bool y) :=
        agrees_of_leaf Iff.rfl (fun heq => by cases heq) (fun heq => by cases heq) rfl
      rw [and_iff_left hagrees]
      exact ⟨fun h => by cases h; exact .bool x, fun h => by cases h; exact .bool x⟩
    | any => exact iff_of_false (fun h => by cases h) fun h => by cases (h.2.wrapped _ _ .here).2 rfl
    | _ => exact iff_of_false (fun h => by cases h) fun h => by cases h.1
  | array r t =>
    cases b with
    | array r' t' =>
      rw [agrees_array]
      have hmatch : s.ArraysMatch R r r' ↔ _ := arraysMatch_iff_erase hR
      constructor
      · intro h
        cases h with
        | array _ _ h => exact ⟨.array (hmatch.1 h).1, (hmatch.1 h).2⟩
      · rintro ⟨h, h'⟩
        cases h with
        | array h => exact .array t t' (hmatch.2 ⟨h, h'⟩)
    | any => exact iff_of_false (fun h => by cases h) fun h => by cases (h.2.wrapped _ _ .here).2 rfl
    | _ => exact iff_of_false (fun h => by cases h) fun h => by cases h.1
  | map r t =>
    cases b with
    | map r' t' =>
      rw [agrees_map]
      have hmatch : s.MapsMatch R r r' ↔ _ := mapsMatch_iff_erase hR
      rw [hfields] at hmatch
      constructor
      · intro h
        cases h with
        | map _ _ h => exact ⟨.map (hmatch.1 h).1, (hmatch.1 h).2⟩
      · rintro ⟨h, h'⟩
        cases h with
        | map h => exact .map t t' (hmatch.2 ⟨h, h'⟩)
    | any => exact iff_of_false (fun h => by cases h) fun h => by cases (h.2.wrapped _ _ .here).2 rfl
    | _ => exact iff_of_false (fun h => by cases h) fun h => by cases h.1
  | none =>
    cases b with
    | none => exact iff_of_false (fun h => by cases h) fun h => not_agrees_none h.2
    | any => exact iff_of_false (fun h => by cases h) fun h => by cases (h.2.wrapped _ _ .here).2 rfl
    | _ => exact iff_of_false (fun h => by cases h) fun h => by cases h.1

omit hR

theorem equalsWithin_iff_erase (hs : s.Sound) {f : Nat} : a.equalsWithin s f b = some true ↔
    a.erase.equalsWithin s.erase f b.erase = some true ∧ a.Agrees s b := by
  induction f generalizing a b with
  | zero => exact iff_of_false (fun h => by cases h) fun h => by cases h.1
  | succ f ih =>
    rw [equalsWithin_succ_iff, Cell.equalsWithin_succ_iff]
    exact alike_iff_erase (fun x y => ih) fun c d => Cell.equalsWithin_symm (hs.mapValues erase)

theorem size_erase (s : Store Value) : s.erase.size = s.size :=
  s.size_mapValues erase

/-- Values are equal exactly if they are equal without types, and their comparison comes to nothing that
the machine sees otherwise. -/
theorem equals_eq_true_iff_erase (hs : s.Sound) : a.equals s b = some true ↔
    a.erase.equals s.erase b.erase = some true ∧ a.Agrees s b := by
  rw [equals, Cell.equals, size_erase]
  exact equalsWithin_iff_erase hs

/-! ### Answers without types -/

theorem inside_of_contains_erase {c : Cell} (h : Cell.Contains s.erase a.erase c) :
    ∃ x, c = x.erase ∧ Inside s a x := by
  induction a with
  | any v ih =>
    obtain ⟨x, hx, hin⟩ := ih h
    have href : v.ref? = (Value.any v).ref? := rfl
    exact ⟨x, hx, hin.of_ref? href⟩
  | array r t =>
    cases h with
    | elem hc =>
      rw [Store.erase, Store.array_mapValues, Array.toList_map] at hc
      obtain ⟨x, hx, rfl⟩ := List.mem_map.1 hc
      exact ⟨x, rfl, .elem rfl hx⟩
  | map r t =>
    cases h with
    | field hc =>
      rw [Store.erase, Store.get?_map_mapValues] at hc
      obtain ⟨x, hx, rfl⟩ := Option.map_eq_some_iff.1 hc
      exact ⟨x, rfl, .field rfl hx⟩
  | _ => cases h

theorem height_erase {n : Nat} (h : Height (Inside s) n a) : Height (Cell.Contains s.erase) n a.erase := by
  induction h with
  | intro _ ih =>
    refine .intro fun c hc => ?_
    obtain ⟨x, rfl, hx⟩ := inside_of_contains_erase hc
    exact ih x hx

theorem erase_equals_isSome (h : a.Acyclic s) (c : Cell) : (a.erase.equals s.erase c).isSome := by
  obtain ⟨v, hv⟩ := Option.isSome_iff_exists.1 (Cell.equalsWithin_isSome (height_erase (height_inside h)) c).1
  rw [Cell.equals_eq_some_iff.2 ⟨_, hv⟩]
  rfl

end Value

/-! ### Types without slots of type `any` -/

/-- Whether this is a type of numbers, texts and truth values, or of arrays and maps of them. -/
def Ty.plain : Ty → Bool
  | leaf k _ => k == .num || k == .string || k == .bool
  | of k _ e => k.isComposite && e.plain

theorem Ty.plain_elem {τ : Ty} (hp : τ.plain) (hk : τ.kind.isComposite) : τ.elem.plain := by
  cases τ with
  | leaf k f => cases k <;> simp [plain, kind, Kind.isComposite] at hp hk
  | of k f e =>
    rw [plain, Bool.and_eq_true] at hp
    exact hp.2

theorem Ty.kind_of_plain {τ : Ty} (hp : τ.plain) : τ.kind ≠ .any ∧ τ.kind ≠ .none := by
  cases τ with
  | leaf k f => cases k <;> simp [plain, kind] at hp ⊢
  | of k f e => cases k <;> simp [plain, kind, Kind.isComposite] at hp ⊢

namespace Value
variable {s : Store Value} {Θ : StoreTy} {a b : Value} {τ : Ty}

/-- A comparison of values of such a type in storage that keeps to its types comes to values of such types
only. -/
theorem Compares.hasType {x y : Value} (h : Compares s x y a b) (hs : StoreTyped Θ s)
    (ha : HasType Θ a τ) (hb : HasType Θ b τ) (hp : τ.plain) :
    ∃ τ' : Ty, τ'.plain ∧ HasType Θ x τ' ∧ HasType Θ y τ' := by
  induction h generalizing τ with
  | here => exact ⟨τ, hp, ha, hb⟩
  | any => exact absurd ha.kind_eq (Ty.kind_of_plain hp).1
  | elem _ hxy _ ih =>
    obtain ⟨hx, hy⟩ := List.of_mem_zip hxy
    obtain ⟨e, he, hsame⟩ := ha.array_storage
    obtain ⟨e', he', hsame'⟩ := hb.array_storage
    exact ih ((hs.array _ e he _ hx).of_same hsame) ((hs.array _ e' he' _ hy).of_same hsame')
      (Ty.plain_elem hp (by rw [ha.kind_eq]; rfl))
  | field _ hx hy _ ih =>
    obtain ⟨e, he, hsame⟩ := ha.map_storage
    obtain ⟨e', he', hsame'⟩ := hb.map_storage
    exact ih ((hs.map _ e he _ _ (Pairs.get?_of_mem_toList hx)).of_same hsame)
      ((hs.map _ e' he' _ _ hy).of_same hsame') (Ty.plain_elem hp (by rw [ha.kind_eq]; rfl))

theorem agrees_of_plain (hs : StoreTyped Θ s) (ha : HasType Θ a τ) (hb : HasType Θ b τ)
    (hp : τ.plain) : a.Agrees s b := by
  refine ⟨fun x y h => ?_, fun x y h => ?_, fun h => ?_⟩
  · obtain ⟨τ', hp', hx, hy⟩ := h.hasType hs ha hb hp
    rw [← hx.kind_eq, ← hy.kind_eq]
  · obtain ⟨τ', hp', hx, -⟩ := h.hasType hs ha hb hp
    exact absurd hx.kind_eq (Ty.kind_of_plain hp').1
  · obtain ⟨τ', hp', hx, -⟩ := h.hasType hs ha hb hp
    exact absurd hx.kind_eq (Ty.kind_of_plain hp').2

/-- For a value without cycles and any other one both equalities have an answer, whatever is in storage.
(Its maps are made by inserting and removing.) The values are equal exactly if they are equal for the
machine, which sees no types, and their comparison comes to values in slots of type `any` only together
and of the same type, and to no missing values. If storage keeps to its types and both values are of a
type without slots of type `any`, then both answers are the same. -/
theorem equals_iff_erase_equals (hs : s.Built) (ha : a.Acyclic s) (b : Value) :
    (a.equals s b).isSome ∧ (a.erase.equals s.erase b.erase).isSome ∧
      (a.equals s b = some true ↔ a.erase.equals s.erase b.erase = some true ∧ a.Agrees s b) ∧
      ∀ Θ τ, StoreTyped Θ s → HasType Θ a τ → HasType Θ b τ → τ.plain →
        a.equals s b = a.erase.equals s.erase b.erase := by
  have hanswer := (equals_isSome ha b).1
  have herased := erase_equals_isSome ha b.erase
  have hiff : a.equals s b = some true ↔ _ := equals_eq_true_iff_erase hs.sound
  refine ⟨hanswer, herased, hiff, fun Θ τ hΘ ha hb hp => eq_of_eq_true_iff hanswer herased ?_⟩
  rw [hiff, and_iff_left (agrees_of_plain hΘ ha hb hp)]

/-! ### Two arrays -/

/-- Storage for two arrays. -/
def twoRows (elems elems' : Array Value) : Store Value :=
  ((Store.newArray {} elems).2.newArray elems').2

/-- An array of type `[]any`. -/
def anyRow (r : Nat) : Value :=
  .array r (.array .any)

theorem twoRows_built (elems elems' : Array Value) : (twoRows elems elems').Built :=
  Store.built_of_forall fun p hp => by simp [twoRows, Store.newArray] at hp

/-- Storage that keeps to its types, and two values of one type in it without cycles. -/
structure Typed (s : Store Value) (τ : Ty) (a b : Value) : Prop where
  types : ∃ Θ, StoreTyped Θ s ∧ HasType Θ a τ ∧ HasType Θ b τ
  left : a.Acyclic s
  right : b.Acyclic s

theorem typed_anyRows {v : Value} (hv : ∀ Θ, HasType Θ (.any v) .any) (hlevels : ∀ s, Levels s 0 v) :
    Typed (twoRows #[.any v] #[.any v]) (.array .any) (anyRow 0) (anyRow 1) := by
  let row : ArrayTy := ⟨.any, false, nofun⟩
  have hrow (Θ : StoreTy) : ∀ u ∈ [Value.any v], HasType Θ u row.elem :=
    List.forall_mem_singleton.2 (hv Θ)
  have hacyclic {r : Nat} (hr : (twoRows #[.any v] #[.any v]).array r = #[.any v]) :
      (anyRow r).Acyclic (twoRows #[.any v] #[.any v]) := by
    refine acyclic_of_levels (n := 1) (.array fun x hx => ?_)
    rw [hr] at hx
    cases List.mem_singleton.1 hx
    exact .any (hlevels _)
  refine ⟨⟨(StoreTy.pushArray {} row).pushArray row, ?_, ⟨rfl, row, rfl, rfl⟩, ⟨rfl, row, rfl, rfl⟩⟩,
    hacyclic rfl, hacyclic rfl⟩
  exact (StoreTyped.nil.newArray (hrow _) nofun).newArray (hrow _) nofun

/-- Texts in slots of type `any`. -/
theorem textRows_equals_iff : ∃ s, s = twoRows #[.any (.str "s")] #[.any (.str "s")] ∧
    s.Built ∧ (anyRow 0).Acyclic s ∧
    ((anyRow 0).equals s (anyRow 1) = some true ↔
      (anyRow 0).erase.equals s.erase (anyRow 1).erase = some true ∧ (anyRow 0).Agrees s (anyRow 1)) := by
  have hbuilt := twoRows_built #[.any (.str "s")] #[.any (.str "s")]
  have htyped := typed_anyRows (v := .str "s") (fun Θ => ⟨rfl, rfl, rfl, trivial⟩) fun s => .str "s"
  exact ⟨_, rfl, hbuilt, htyped.left, (equals_iff_erase_equals hbuilt htyped.left (anyRow 1)).2.2.1⟩

/-- Two values are different, but are equal without their types. -/
def differ (s : Store Value) (a b : Value) : Bool :=
  a.equals s b == some false && a.erase.equals s.erase b.erase == some true

/-- A program with two variables of type `[]any`, of which the first one gets a slice of a `[]string`. -/
def slicedSource : String :=
  "a := [\"s\"]\nb:[]any\nb = a[:]\nc:[]any\nc = [\"s\"]\nprint b==c\n"

/-- Whether a run ended well with different values in two variables that are equal without types. -/
def endsWith (x y : String) (r : Except Interrupt Unit × Interpreter × World) : Bool :=
  r.1.isOk && (r.2.1.global? x).any fun a => (r.2.1.global? y).any fun b => differ r.2.2.store a b

/-- Empty arrays of numbers and of texts differ in slots of type `any`, so do the results of functions
that return nothing, and so do a slice of texts and texts in slots of type `any`. -/
theorem emptyRows_missingRows_differ :
    (Typed (twoRows #[] #[]) .any (.any (.array 0 (.array .num))) (.any (.array 1 (.array .string))) ∧
      differ (twoRows #[] #[]) (.any (.array 0 (.array .num))) (.any (.array 1 (.array .string)))) ∧
    (Typed (twoRows #[.any .none] #[.any .none]) (.array .any) (anyRow 0) (anyRow 1) ∧
      differ (twoRows #[.any .none] #[.any .none]) (anyRow 0) (anyRow 1)) ∧
    endsWith "b" "c" (Interpreter.run {} {} slicedSource 1) := by
  refine ⟨⟨⟨?_, ?_, ?_⟩, by decide +kernel⟩,
    ⟨typed_anyRows (fun Θ => ⟨rfl, rfl, rfl, trivial⟩) fun s => .none, by decide +kernel⟩, by decide +kernel⟩
  · let nums : ArrayTy := ⟨.num, true, fun _ => rfl⟩
    let texts : ArrayTy := ⟨.string, true, fun _ => rfl⟩
    have hnil (Θ : StoreTy) (τ : Ty) : ∀ v ∈ (#[] : Array Value).toList, HasType Θ v τ := by simp
    refine ⟨(StoreTy.pushArray {} nums).pushArray texts, ?_, ⟨rfl, rfl, rfl, nums, rfl, rfl⟩,
      ⟨rfl, rfl, rfl, texts, rfl, rfl⟩⟩
    exact (StoreTyped.nil.newArray (hnil _ _) fun _ => rfl).newArray (hnil _ _) fun _ => rfl
  · exact acyclic_of_levels (n := 1) (.any (.array nofun))
  · exact acyclic_of_levels (n := 1) (.any (.array nofun))

end Value

end TinyScript
