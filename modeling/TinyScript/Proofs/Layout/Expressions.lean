import TinyScript.Parsing.Expression
import TinyScript.Proofs.Layout.Newlines

/-!
# The layout of expressions

An expression is written from something visible to something visible, and its literals, which may take
several lines, keep at most one blank line between them (`Expr.Neat`). Retyping an expression does not
change how it is written.
-/

namespace TinyScript.Layout
open Word

/-! ### Types -/

theorem visible_ident {name : String} (h : Visible name) : Visible (ident name).text := h

theorem kind_solid (k : Kind) : Solid (kind k) := by
  cases k
  case array | map => exact .cons (by decide) (.cons (by decide) .nil)
  all_goals exact .cons (by decide) .nil

theorem type_solid (ty : Ty) : Solid (type ty) := by
  induction ty with
  | leaf k f => exact kind_solid k
  | of k f elem ih =>
    unfold type
    split
    · exact kind_solid k
    · exact (kind_solid k).append ih.flat

theorem typedVar_solid {v : Var} (h : Visible v.name) : Solid (typedVar v) :=
  .cons (visible_ident h) (.cons (by decide) (type_solid v.ty).flat)

/-! ### Literals -/

/-- A literal has the given number of elements, and comments that can be seen between them. -/
structure Fits (layout : List LayoutItem) (count : Nat) : Prop where
  comments : ∀ text, .comment text ∈ layout → Visible text
  elements : layout.count .element = count

theorem Fits.nil : Fits [] 0 :=
  ⟨by simp, rfl⟩

theorem Fits.push {layout : Array LayoutItem} {count : Nat} (h : Fits layout.toList count)
    {item : LayoutItem} (hitem : item ≠ .element) (htext : ∀ text, item = .comment text → Visible text) :
    Fits (layout.push item).toList count := by
  rw [Array.toList_push]
  refine ⟨fun text hmem => ?_, ?_⟩
  · rcases List.mem_append.1 hmem with hmem | hmem
    · exact h.comments text hmem
    · exact htext text (List.mem_singleton.1 hmem).symm
  · rw [List.count_append, h.elements, List.count_singleton, if_neg (by simpa using hitem), Nat.add_zero]

theorem Fits.pushElement {layout : Array LayoutItem} {count : Nat} (h : Fits layout.toList count) :
    Fits (layout.push .element).toList (count + 1) := by
  rw [Array.toList_push]
  refine ⟨fun text hmem => ?_, ?_⟩
  · rcases List.mem_append.1 hmem with hmem | hmem
    · exact h.comments text hmem
    · cases List.mem_singleton.1 hmem
  · rw [List.count_append, h.elements]
    rfl

section
variable {level n lines : Nat} {layout : List LayoutItem} {elems : List (List Word)} {ws : List Word}

theorem spaced_indent (level n : Nat) : ∃ m ≤ n, Spaced n (indent level) m := by
  cases level with
  | zero => exact ⟨n, Nat.le_refl n, .nil n⟩
  | succ level => exact ⟨0, Nat.zero_le n, solid_of_visible (visible_blank _) n⟩

theorem solid_indent (level : Nat) (h : Solid ws) : Solid (indent level ++ ws) := by
  intro n
  obtain ⟨m, -, hm⟩ := spaced_indent level n
  exact hm.append (h m)

theorem spaced_lineStart (level n : Nat) (c : Bool) : ∃ m ≤ n, Spaced n (if c then indent level else []) m := by
  cases c with
  | false => exact ⟨n, Nat.le_refl n, .nil n⟩
  | true => exact spaced_indent level n

/-- Collapsed items keep at most one blank line in a row. There are as many line ends before them as are
counted, if no more than two are. -/
theorem items_spaced (hn : n ≤ lines) (hle : n ≤ 2) (hlayout : Fits layout elems.length)
    (helems : ∀ ws ∈ elems, Solid ws) :
    ∃ m, Spaced n (items level (collapse lines layout) elems) m := by
  induction layout generalizing n lines elems with
  | nil => exact ⟨n, .nil n⟩
  | cons item rest ih =>
    have hcomments : ∀ text, .comment text ∈ rest → Visible text :=
      fun text hmem => hlayout.comments text (List.mem_cons_of_mem _ hmem)
    cases item with
    | element =>
      cases elems with
      | nil =>
        have hcount := hlayout.elements
        simp at hcount
      | cons ws elems =>
        obtain ⟨hws, helems⟩ := List.forall_mem_cons.1 helems
        have hrest : Fits rest elems.length := by
          refine ⟨hcomments, ?_⟩
          have hcount := hlayout.elements
          rw [List.count_cons_self, List.length_cons] at hcount
          exact Nat.succ.inj hcount
        obtain ⟨m, hm⟩ := ih (Nat.zero_le 0) (Nat.zero_le 2) hrest helems
        have hgap : Flat (if onLine (collapse 0 rest) then [space] else []) := .ite (.cons visible_space .nil)
        exact ⟨m, ((hws n).append hgap).append hm⟩
    | newline =>
      have hrest : Fits rest elems.length := by
        refine ⟨hcomments, ?_⟩
        rw [← hlayout.elements, List.count_cons_of_ne (by decide)]
      rw [collapse]
      split
      · exact ih (Nat.le_succ_of_le hn) hle hrest helems
      · obtain ⟨k, hk, hline⟩ := spaced_lineStart level (n + 1) (onLine (collapse (lines + 1) rest))
        have hcounted : k ≤ lines + 1 := Nat.le_trans hk (Nat.succ_le_succ hn)
        obtain ⟨m, hm⟩ := ih hcounted (by omega) hrest helems
        exact ⟨m, ((Spaced.newline (by omega)).append hline).append hm⟩
    | comment text =>
      have hrest : Fits rest elems.length := by
        refine ⟨hcomments, ?_⟩
        rw [← hlayout.elements, List.count_cons_of_ne (by simp)]
      have htext : Visible (token .comment text).text := hlayout.comments text List.mem_cons_self
      obtain ⟨k, hk, hline⟩ := spaced_lineStart level 1 (onLine (collapse 1 rest))
      obtain ⟨m, hm⟩ := ih hk (by omega) hrest helems
      have hend : Spaced n [token .comment text, newline] 1 :=
        (solid_of_visible htext n).append (Spaced.newline (by omega))
      exact ⟨m, (hend.append hline).append hm⟩

/-- A literal begins and ends with its brackets. -/
theorem literal_solid {left right : TokenKind} (hleft : Visible (sign left).text)
    (hright : Visible (sign right).text) (hlayout : Fits layout elems.length)
    (helems : ∀ ws ∈ elems, Solid ws) : Solid (literal level left right layout elems) := by
  unfold literal
  split
  · exact .cons hleft (.cons hright .nil)
  · extract_lets lead back
    have hlead : Flat lead := by
      dsimp only [lead]
      split
      · exact .cons visible_space .nil
      · exact .nil
    intro n
    obtain ⟨m, hm⟩ : ∃ m, Spaced 0 (items (level + 1) (collapse 0 layout) elems) m :=
      items_spaced (Nat.zero_le 0) (Nat.zero_le 2) hlayout helems
    obtain ⟨k, hback⟩ : ∃ k, Spaced m back k := by
      dsimp only [back]
      split
      · obtain ⟨k, -, hk⟩ := spaced_indent level m
        exact ⟨k, hk⟩
      · exact ⟨m, .nil m⟩
    exact (((Solid.cons hleft hlead n).append hm).append hback).append (solid_of_visible hright k)

end

/-! ### Lists of expressions -/

theorem exprs_eq_map (level : Nat) (es : List Expr) : exprs level es = es.map (expr level) := by
  induction es with
  | nil => rfl
  | cons e es ih => rw [exprs, ih, List.map_cons]

theorem keyed_eq_map (level : Nat) (ps : List (String × Expr)) :
    keyed level ps = ps.map fun (k, e) => ident k :: sign .colon :: expr level e := by
  induction ps with
  | nil => rfl
  | cons p ps ih => rw [keyed, ih, List.map_cons]

/-! ### Retyping -/

mutual

theorem expr_infer (level : Nat) (e : Expr) : expr level e.infer = expr level e := by
  cases e with
  | array m layout elems => rw [Expr.infer, expr, expr, exprs_infer]
  | map m layout pairs => rw [Expr.infer, expr, expr, keyed_infer]
  | group m inner => rw [Expr.infer, expr, expr, expr_infer]
  | binary m op tight left right => rw [Expr.infer, expr, expr, expr_infer, expr_infer]
  | _ => rfl

theorem exprs_infer (level : Nat) (es : List Expr) : exprs level (Expr.inferAll es) = exprs level es := by
  cases es with
  | nil => rfl
  | cons e es => rw [Expr.inferAll, exprs, exprs, expr_infer, exprs_infer]

theorem keyed_infer (level : Nat) (ps : List (String × Expr)) :
    keyed level (Expr.inferPairs ps) = keyed level ps := by
  match ps with
  | [] => rfl
  | (k, e) :: ps => rw [Expr.inferPairs, keyed, keyed, expr_infer, keyed_infer]

end

theorem expr_toAny (level : Nat) (e : Expr) : expr level e.toAny = expr level e := by
  rw [Expr.toAny, expr, expr_infer]

mutual

theorem expr_wrap (level : Nat) (ty : Ty) (e : Expr) : expr level (e.wrap ty) = expr level e := by
  match e with
  | .array m layout elems =>
    unfold Expr.wrap
    split
    · rfl
    · exact expr_toAny level _
    · rw [expr, expr, exprs_wrap]
  | .map m layout pairs =>
    unfold Expr.wrap
    split
    · rfl
    · exact expr_toAny level _
    · rw [expr, expr, keyed_wrap]
  | .group m inner =>
    unfold Expr.wrap
    split
    · rfl
    · exact expr_toAny level _
    · rw [expr, expr, expr_wrap]
  | .binary m op tight left right =>
    unfold Expr.wrap
    split
    · rfl
    · exact expr_toAny level _
    · rw [expr, expr, expr_wrap, expr_wrap]
  | .var .. | .num .. | .str .. | .bool .. | .call .. | .unary .. | .index .. | .slice .. | .dot ..
  | .assert .. | .any .. =>
    unfold Expr.wrap
    split
    · exact expr_toAny level _
    · rfl

theorem exprs_wrap (level : Nat) (ty : Ty) (es : List Expr) :
    exprs level (Expr.wrapAll ty es) = exprs level es := by
  match es with
  | [] => rfl
  | e :: es => rw [Expr.wrapAll, exprs, exprs, expr_wrap, exprs_wrap]

theorem keyed_wrap (level : Nat) (ty : Ty) (ps : List (String × Expr)) :
    keyed level (Expr.wrapPairs ty ps) = keyed level ps := by
  match ps with
  | [] => rfl
  | (k, e) :: ps => rw [Expr.wrapPairs, keyed, keyed, expr_wrap, keyed_wrap]

end

end TinyScript.Layout

namespace TinyScript
open Layout Word

/-- The expression is written from something visible to something visible, without two blank lines. -/
def Expr.Neat (e : Expr) : Prop :=
  ∀ level, Solid (expr level e)

section
variable {m : Mark} {name : String} {e left right inner : Expr} {es : List Expr}

theorem arguments_flat (level : Nat) (h : ∀ e ∈ es, e.Neat) : Flat (arguments level es) := by
  induction es with
  | nil => exact .nil
  | cons e es ih =>
    obtain ⟨he, hes⟩ := List.forall_mem_cons.1 h
    exact Flat.append (.cons visible_space (he level).flat) (ih hes)

theorem exprOption_flat (level : Nat) {e? : Option Expr} (h : ∀ e, e? = some e → e.Neat) :
    Flat (exprOption level e?) := by
  cases e? with
  | none => exact .nil
  | some e => exact (h e rfl level).flat

namespace Expr.Neat

theorem var (h : Visible name) : (Expr.var m name).Neat :=
  fun _ => .cons (visible_ident h) .nil

theorem num (value : Float) : (Expr.num m value).Neat :=
  fun _ => .cons (visible_numLit value) .nil

theorem str (value : String) : (Expr.str m value).Neat :=
  fun _ => .cons (visible_quote value) .nil

theorem bool (value : Bool) : (Expr.bool m value).Neat := by
  intro level
  cases value <;> exact .cons (by decide) .nil

theorem array {layout : List LayoutItem} (hlayout : Fits layout es.length) (h : ∀ e ∈ es, e.Neat) :
    (Expr.array m layout es).Neat := by
  intro level
  rw [expr, exprs_eq_map]
  refine literal_solid (by decide) (by decide) (by rwa [List.length_map]) fun ws hws => ?_
  obtain ⟨e, he, rfl⟩ := List.mem_map.1 hws
  exact h e he _

theorem map {layout : List LayoutItem} {ps : List (String × Expr)} (hlayout : Fits layout ps.length)
    (h : ∀ p ∈ ps, Visible p.1 ∧ p.2.Neat) : (Expr.map m layout ps).Neat := by
  intro level
  rw [expr, keyed_eq_map]
  refine literal_solid (by decide) (by decide) (by rwa [List.length_map]) fun ws hws => ?_
  obtain ⟨p, hp, rfl⟩ := List.mem_map.1 hws
  obtain ⟨hkey, hvalue⟩ := h p hp
  exact .cons (visible_ident hkey) (.cons (by decide) (hvalue _).flat)

theorem call {result : Ty} (hname : Visible name) (h : ∀ e ∈ es, e.Neat) : (Expr.call m name es result).Neat :=
  fun level => .cons (visible_ident hname) (arguments_flat level h)

theorem unary (op : UnaryOp) (h : e.Neat) : (Expr.unary m op e).Neat := by
  intro level
  have hop : Visible (sign (unaryOp op)).text := by cases op <;> decide
  exact .cons hop (h level).flat

theorem binary (op : BinaryOp) (tight : Bool) (hleft : left.Neat) (hright : right.Neat) :
    (Expr.binary m op tight left right).Neat := by
  intro level
  have hop : Visible (sign (binaryOp op)).text := by cases op <;> decide
  have hgap : Flat (if tight then [] else [space]) := by
    split
    · exact .nil
    · exact .cons visible_space .nil
  rw [expr]
  exact (((hleft level).append hgap).append (.cons hop hgap)).append (hright level).flat

theorem index (hleft : left.Neat) (hkey : e.Neat) : (Expr.index m left e).Neat := by
  intro level
  rw [expr]
  exact ((hleft level).append (.cons (by decide) (hkey level).flat)).append (.cons (by decide) .nil)

theorem slice {start stop : Option Expr} (hleft : left.Neat) (hstart : ∀ e, start = some e → e.Neat)
    (hstop : ∀ e, stop = some e → e.Neat) : (Expr.slice m left start stop).Neat := by
  intro level
  have hstart := exprOption_flat level hstart
  have hstop := exprOption_flat level hstop
  rw [expr]
  refine Solid.append (Solid.append (Solid.append (hleft level) ?_) ?_) (.cons (by decide) .nil)
  · exact .cons (by decide) hstart
  · exact .cons (by decide) hstop

theorem dot (hleft : left.Neat) (hname : Visible name) : (Expr.dot m left name).Neat := by
  intro level
  rw [expr]
  exact (hleft level).append (.cons (by decide) (.cons (visible_ident hname) .nil))

theorem group (h : inner.Neat) : (Expr.group m inner).Neat := by
  intro level
  rw [expr]
  exact (Solid.cons (by decide) (h level).flat).append (.cons (by decide) .nil)

theorem assert (hleft : left.Neat) : (Expr.assert m left).Neat := by
  intro level
  rw [expr]
  refine Solid.append (Solid.append (hleft level) ?_) (.cons (by decide) .nil)
  exact .cons (by decide) (.cons (by decide) (type_solid m.ty).flat)

theorem infer (h : e.Neat) : e.infer.Neat := by
  intro level
  rw [expr_infer]
  exact h level

theorem wrap (h : e.Neat) (ty : Ty) : (e.wrap ty).Neat := by
  intro level
  rw [expr_wrap]
  exact h level

theorem joinable (op : BinaryOp) (hleft : left.Neat) (hright : right.Neat) :
    (Parsing.joinable op left right).1.Neat ∧ (Parsing.joinable op left right).2.Neat := by
  unfold Parsing.joinable
  split
  · exact ⟨hleft, hright⟩
  split
  · exact ⟨hleft, hright.wrap _⟩
  split
  · exact ⟨hleft.wrap _, hright⟩
  · exact ⟨hleft, hright⟩

end Expr.Neat

end

end TinyScript
