import TinyScript.Expr.Retype
import TinyScript.Proofs.Layout.Expressions
import TinyScript.Proofs.Scribing.Scribe

/-!
# The layout of literals

The layout of a literal looks ahead for the blank after an item; a scribe writes the blank before the
next one. Both lay out the same. What only changes types leaves the layout alone.
-/

namespace TinyScript.Layout
open Word

/-! ### Items -/

/-- The items of a literal at a level after `last`, and the blank before its closing bracket. -/
def itemWords (level : Nat) : (last : Item) → List LayoutItem → (elems : List (List Word)) → List Word
  | last, [], _ => last.back level
  | last, .element :: rest, elems =>
    last.lead level ++ elems.headD [] ++ itemWords level .element rest elems.tail
  | last, .newline :: rest, elems =>
    match last.nextLine? with
    | some next => newline :: itemWords level next rest elems
    | none => itemWords level last rest elems
  | last, .comment text :: rest, elems =>
    last.commentLead level ++ token .comment text :: newline :: itemWords level .comment rest elems

/-- What was written last before items that follow the given number of line ends. -/
def Item.after : Item → (lines : Nat) → Prop
  | .start, lines | .element, lines => lines = 0
  | .comment, lines | .newline false, lines => lines = 1
  | .newline true, lines => 2 ≤ lines

/-- The blank before the next of some items. -/
def Item.gap (level : Nat) (last : Item) : List LayoutItem → List Word
  | .element :: _ => last.lead level
  | .comment _ :: _ => last.commentLead level
  | _ => []

/-- The blank between items and the closing bracket. -/
def Item.ending (level : Nat) (last : Item) (layout : List LayoutItem) : List Word :=
  match layout.getLast? with
  | none => last.back level
  | some .newline => indent level
  | some _ => []

section
variable {level : Nat} {last next : Item} {layout : List LayoutItem}

theorem Item.ending_cons (next : Item) {item : LayoutItem} (h : next.ending level [] = last.ending level [item]) :
    last.ending level (item :: layout) = next.ending level layout := by
  cases layout with
  | nil => exact h.symm
  | cons i layout =>
    unfold ending
    rw [List.getLast?_cons_cons, List.getLast?_cons]
    cases layout.getLast?.getD i <;> rfl

theorem Item.gap_newline (again : Bool) :
    (newline again).gap level layout = if onLine layout then indent (level + 1) else [] := by
  rcases layout with _ | ⟨_ | _ | _, _⟩ <;> rfl

theorem Item.gap_comment :
    comment.gap level layout = if onLine layout then indent (level + 1) else [] := by
  rcases layout with _ | ⟨_ | _ | _, _⟩ <;> rfl

theorem Item.gap_element :
    element.gap level layout = if onLine layout then [space] else [] := by
  rcases layout with _ | ⟨_ | _ | _, _⟩ <;> rfl

theorem Item.after_newline {lines : Nat} (h : last.after lines) :
    (2 ≤ lines ∧ last.nextLine? = none ∧ last.after (lines + 1)) ∨
      (lines < 2 ∧ ∃ again, last.nextLine? = some (.newline again) ∧ (newline again).after (lines + 1)) := by
  cases last with
  | start | element =>
    cases h
    exact .inr ⟨by omega, false, rfl, rfl⟩
  | comment =>
    cases h
    exact .inr ⟨by omega, true, rfl, Nat.le_refl _⟩
  | newline again =>
    cases again with
    | false =>
      cases h
      exact .inr ⟨by omega, true, rfl, Nat.le_refl _⟩
    | true => exact .inl ⟨h, rfl, Nat.le_succ_of_le h⟩

theorem items_collapse {lines : Nat} (layout : List LayoutItem) (elems : List (List Word))
    (h : last.after lines) :
    last.gap level (collapse lines layout) ++ items (level + 1) (collapse lines layout) elems
      ++ last.ending level (collapse lines layout) = itemWords level last layout elems := by
  induction layout generalizing last lines elems with
  | nil => rfl
  | cons item rest ih =>
    cases item with
    | element =>
      rw [itemWords, ← ih elems.tail (show Item.after .element 0 from rfl), collapse, items, Item.gap_element,
        Item.ending_cons .element rfl]
      simp [Item.gap]
    | comment text =>
      rw [itemWords, ← ih elems (show Item.after .comment 1 from rfl), collapse, items, Item.gap_comment,
        Item.ending_cons .comment rfl]
      simp [Item.gap]
    | newline =>
      rw [itemWords, collapse]
      rcases Item.after_newline h with ⟨hle, hnone, hafter⟩ | ⟨hlt, again, hnext, hafter⟩
      · rw [if_pos hle, hnone]
        exact ih elems hafter
      · rw [if_neg (Nat.not_le.2 hlt), hnext, items]
        dsimp only
        rw [← ih elems hafter, Item.gap_newline, Item.ending_cons (.newline again) rfl]
        simp [Item.gap]

/-- The layout of a literal item by item. -/
theorem literal_eq (level : Nat) (left right : TokenKind) (layout : List LayoutItem)
    (elems : List (List Word)) :
    literal level left right layout elems =
      sign left :: itemWords level .start layout elems ++ [sign right] := by
  rw [← items_collapse layout elems (show Item.after .start 0 from rfl), literal]
  split
  · next hnil =>
    rw [hnil]
    rfl
  · next hne =>
    have hending : Item.ending level .start (collapse 0 layout) =
        if (collapse 0 layout).getLast? = some .newline then indent level else [] := by
      unfold Item.ending
      split
      · next hnone => exact absurd (List.getLast?_eq_none_iff.1 hnone) hne
      · next h => rw [if_pos h]
      · next item hitem h =>
        rw [if_neg fun hnl => hitem (Option.some.inj (h.symm.trans hnl))]
    rw [hending]
    rcases hlayout : collapse 0 layout with _ | ⟨_ | _ | _, _⟩
    · exact absurd hlayout hne
    all_goals rfl

end

/-- The words of some items with their elements, which come between `last` and `last'`. -/
def Draws (level : Nat) (last : Item) (layout : List LayoutItem) (elems : List (List Word))
    (words : List Word) (last' : Item) : Prop :=
  ∀ rest es, itemWords level last (layout ++ rest) (elems ++ es) = words ++ itemWords level last' rest es

section
variable {level : Nat} {last last' last'' : Item} {layout layout' : List LayoutItem}
  {elems elems' : List (List Word)} {words words' : List Word}

theorem Draws.nil : Draws level last [] [] [] last :=
  fun _ _ => rfl

theorem Draws.append (h : Draws level last layout elems words last')
    (h' : Draws level last' layout' elems' words' last'') :
    Draws level last (layout ++ layout') (elems ++ elems') (words ++ words') last'' := by
  intro rest es
  rw [List.append_assoc, List.append_assoc, h, h', List.append_assoc]

theorem Draws.newline {next : Item} (h : last.nextLine? = some next) :
    Draws level last [.newline] [] [Word.newline] next := by
  intro rest es
  rw [List.singleton_append, itemWords, h]
  rfl

theorem Draws.noNewline (h : last.nextLine? = none) : Draws level last [.newline] [] [] last := by
  intro rest es
  rw [List.singleton_append, itemWords, h]
  rfl

theorem Draws.comment (text : String) :
    Draws level last [.comment text] [] (last.commentLead level ++ [token .comment text, Word.newline]) .comment := by
  intro rest es
  simp [itemWords]

theorem Draws.element (elem : List Word) :
    Draws level last [.element] [elem] (last.lead level ++ elem) .element := by
  intro rest es
  simp [itemWords]

theorem Draws.all (h : Draws level last layout elems words last') :
    itemWords level last layout elems = words ++ last'.back level := by
  have hall := h [] []
  rwa [List.append_nil, List.append_nil, itemWords] at hall

end

/-! ### Retyping -/

theorem exprs_map_wrap (level : Nat) (ty : Ty) (es : List Expr) :
    exprs level (es.map (Expr.wrap ty)) = exprs level es := by
  induction es with
  | nil => rfl
  | cons e es ih => rw [List.map_cons, exprs, exprs, expr_wrap, ih]

theorem keyed_map_wrap (level : Nat) (ty : Ty) (ps : List (String × Expr)) :
    keyed level (ps.map fun (k, v) => (k, v.wrap ty)) = keyed level ps := by
  induction ps with
  | nil => rfl
  | cons p ps ih => rw [List.map_cons, keyed, keyed, expr_wrap, ih]

theorem arguments_map_wrap (level : Nat) (ty : Ty) (es : List Expr) :
    arguments level (es.map (Expr.wrap ty)) = arguments level es := by
  induction es with
  | nil => rfl
  | cons e es ih => rw [List.map_cons, arguments, arguments, expr_wrap, ih]

theorem arguments_zipWith_wrap (level : Nat) {es : List Expr} {params : List Var}
    (h : params.length = es.length) :
    arguments level (es.zipWith (fun e v => e.wrap v.ty) params) = arguments level es := by
  induction es generalizing params with
  | nil => rfl
  | cons e es ih =>
    cases params with
    | nil => cases h
    | cons v params =>
      rw [List.zipWith_cons_cons, arguments, arguments, expr_wrap, ih (Nat.succ.inj h)]

end TinyScript.Layout
