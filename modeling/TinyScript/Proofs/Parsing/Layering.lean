import TinyScript.Parsing.Expression

/-!
# Expressions as they are written

`Expr.words` reads the names, literals and operators of an expression from left to right, and
`Expr.Layered` says that an expression needs no more parentheses than it has: below every operator stand
only operators that bind more strongly, or as strongly on its left. Retyping literals changes neither
(`Expr.Retells`).
-/

namespace TinyScript

/-- What an expression is written with, apart from punctuation. -/
inductive ExprWord where
  | name (text : String)
  | num (value : Float)
  | str (value : String)
  | bool (value : Bool)
  | op (text : String)

/-- The word that a token stands for. -/
def Token.word? (t : Token) : Option ExprWord :=
  match t.kind with
  | .ident => some (.name t.literal)
  | .numLit => (Decimal.readFloat? t.literal).map .num
  | .stringLit => some (.str t.literal)
  | .true => some (.bool true)
  | .false => some (.bool false)
  | .bang => some (.op "!")
  | k => (BinaryOp.ofToken? k).map fun op => .op op.text

namespace BinaryOp

/-- How strongly an operator binds. -/
def precedence : BinaryOp → Parsing.Precedence
  | .or => .or
  | .and => .and
  | .eq | .notEq => .equals
  | .lt | .gt | .ltEq | .gtEq => .lessGreater
  | .add | .sub => .sum
  | .mul | .div | .rem => .product

theorem precedence_of_token {k : TokenKind} {op : BinaryOp} (h : ofToken? k = some op) :
    Parsing.precedenceOf k = op.precedence := by
  cases k <;> cases h <;> rfl

theorem level_lt_unary (op : BinaryOp) : op.precedence.level < Parsing.Precedence.unary.level := by
  cases op <;> decide

theorem word_of_token {t : Token} {op : BinaryOp} (h : ofToken? t.kind = some op) :
    t.word? = some (.op op.text) := by
  obtain ⟨kind, literal, pos⟩ := t
  cases kind <;> cases h <;> rfl

end BinaryOp

namespace Expr

/-! ### Reading a tree -/

mutual

/-- The names, literals and operators of an expression from left to right. -/
def words : Expr → List ExprWord
  | var _ name => [.name name]
  | num _ x => [.num x]
  | str _ s => [.str s]
  | bool _ b => [.bool b]
  | array _ _ elems => wordsAll elems
  | map _ _ pairs => wordsPairs pairs
  | call _ name args _ => .name name :: wordsAll args
  | unary _ op operand => .op op.text :: operand.words
  | binary _ op _ left right => left.words ++ .op op.text :: right.words
  | index _ left key => left.words ++ key.words
  | slice _ left start stop => left.words ++ (wordsOption start ++ wordsOption stop)
  | dot _ left key => left.words ++ [.name key]
  | group _ inner => inner.words
  | assert _ left => left.words
  | any _ inner => inner.words

def wordsAll : List Expr → List ExprWord
  | [] => []
  | e :: es => e.words ++ wordsAll es

def wordsPairs : List (String × Expr) → List ExprWord
  | [] => []
  | (key, e) :: ps => .name key :: (e.words ++ wordsPairs ps)

def wordsOption : Option Expr → List ExprWord
  | none => []
  | some e => e.words

end

/-- How strongly the operator on top of an expression binds, looking through `any`. All other
expressions, such as those in parentheses, bind as strongly as an index. -/
def level : Expr → Nat
  | any _ inner => inner.level
  | binary _ op _ _ _ => op.precedence.level
  | unary .. => Parsing.Precedence.unary.level
  | _ => Parsing.Precedence.index.level

mutual

/-- The operators in the expression stand above operators that bind more strongly, or as strongly on the
left of an operator with two operands. Only what is no operator with operands of its own is indexed,
sliced or asserted to have a type. -/
def Layered : Expr → Prop
  | binary _ op _ left right => op.precedence.level ≤ left.level ∧ op.precedence.level < right.level ∧
      left.Layered ∧ right.Layered
  | unary _ _ operand => Parsing.Precedence.unary.level ≤ operand.level ∧ operand.Layered
  | index _ left key => Parsing.Precedence.index.level ≤ left.level ∧ left.Layered ∧ key.Layered
  | slice _ left start stop => Parsing.Precedence.index.level ≤ left.level ∧ left.Layered ∧
      LayeredOption start ∧ LayeredOption stop
  | dot _ left _ => Parsing.Precedence.index.level ≤ left.level ∧ left.Layered
  | assert _ left => Parsing.Precedence.index.level ≤ left.level ∧ left.Layered
  | array _ _ elems => LayeredAll elems
  | map _ _ pairs => LayeredPairs pairs
  | call _ _ args _ => LayeredAll args
  | group _ inner => inner.Layered
  | any _ inner => inner.Layered
  | var .. | num .. | str .. | bool .. => True

def LayeredAll : List Expr → Prop
  | [] => True
  | e :: es => e.Layered ∧ LayeredAll es

def LayeredPairs : List (String × Expr) → Prop
  | [] => True
  | (_, e) :: ps => e.Layered ∧ LayeredPairs ps

def LayeredOption : Option Expr → Prop
  | none => True
  | some e => e.Layered

end

/-! ### Retyping -/

/-- An expression is written like another one, and as well layered. -/
structure Retells (e f : Expr) : Prop where
  words : f.words = e.words
  level : f.level = e.level
  layered : e.Layered → f.Layered

structure RetellsAll (es fs : List Expr) : Prop where
  words : wordsAll fs = wordsAll es
  layered : LayeredAll es → LayeredAll fs

structure RetellsPairs (ps qs : List (String × Expr)) : Prop where
  words : wordsPairs qs = wordsPairs ps
  layered : LayeredPairs ps → LayeredPairs qs

variable {e f : Expr} {es fs : List Expr} {ps qs : List (String × Expr)}

theorem Retells.refl (e : Expr) : Retells e e := ⟨rfl, rfl, id⟩

theorem RetellsAll.refl (es : List Expr) : RetellsAll es es := ⟨rfl, id⟩

theorem RetellsAll.cons (h : Retells e f) (hs : RetellsAll es fs) : RetellsAll (e :: es) (f :: fs) where
  words := by
    show f.words ++ wordsAll fs = e.words ++ wordsAll es
    rw [h.words, hs.words]
  layered hl := ⟨h.layered hl.1, hs.layered hl.2⟩

theorem RetellsPairs.cons (key : String) (h : Retells e f) (hs : RetellsPairs ps qs) :
    RetellsPairs ((key, e) :: ps) ((key, f) :: qs) where
  words := by
    show ExprWord.name key :: (f.words ++ wordsPairs qs) = ExprWord.name key :: (e.words ++ wordsPairs ps)
    rw [h.words, hs.words]
  layered hl := ⟨h.layered hl.1, hs.layered hl.2⟩

theorem Retells.array (h : RetellsAll es fs) (m m' : Mark) (layout : List LayoutItem) :
    Retells (.array m layout es) (.array m' layout fs) :=
  ⟨h.words, rfl, h.layered⟩

theorem Retells.map (h : RetellsPairs ps qs) (m m' : Mark) (layout : List LayoutItem) :
    Retells (.map m layout ps) (.map m' layout qs) :=
  ⟨h.words, rfl, h.layered⟩

theorem Retells.group (h : Retells e f) (m m' : Mark) : Retells (.group m e) (.group m' f) :=
  ⟨h.words, rfl, h.layered⟩

theorem Retells.binary {l r l' r' : Expr} (hl : Retells l l') (hr : Retells r r') (m m' : Mark)
    (op : BinaryOp) (tight : Bool) : Retells (.binary m op tight l r) (.binary m' op tight l' r') where
  words := by
    show l'.words ++ ExprWord.op op.text :: r'.words = l.words ++ ExprWord.op op.text :: r.words
    rw [hl.words, hr.words]
  level := rfl
  layered := by
    rintro ⟨hleft, hright, hll, hlr⟩
    refine ⟨?_, ?_, hl.layered hll, hr.layered hlr⟩
    · rw [hl.level]; exact hleft
    · rw [hr.level]; exact hright

mutual

theorem retells_infer (e : Expr) : Retells e e.infer := by
  match e with
  | .array m layout elems => exact .array (retellsAll_infer elems) _ _ _
  | .map m layout pairs => exact .map (retellsPairs_infer pairs) _ _ _
  | .group m inner => exact .group (retells_infer inner) _ _
  | .binary m op tight left right =>
    exact .binary (retells_infer left) (retells_infer right) _ _ _ _
  | .var .. | .num .. | .str .. | .bool .. | .call .. | .unary .. | .index .. | .slice .. | .dot ..
  | .assert .. | .any .. => exact .refl _

theorem retellsAll_infer (es : List Expr) : RetellsAll es (inferAll es) := by
  match es with
  | [] => exact .refl _
  | e :: es => exact .cons (retells_infer e) (retellsAll_infer es)

theorem retellsPairs_infer (ps : List (String × Expr)) : RetellsPairs ps (inferPairs ps) := by
  match ps with
  | [] => exact ⟨rfl, id⟩
  | (key, e) :: ps => exact .cons key (retells_infer e) (retellsPairs_infer ps)

end

theorem retells_toAny (e : Expr) : Retells e e.toAny :=
  ⟨(retells_infer e).words, (retells_infer e).level, (retells_infer e).layered⟩

mutual

/-- Fitting an expression into a slot leaves it as it is written. -/
theorem retells_wrap (target : Ty) (e : Expr) : Retells e (e.wrap target) := by
  match e with
  | .array m layout elems =>
    unfold wrap
    split
    · exact .refl _
    · exact retells_toAny _
    · exact .array (retellsAll_wrap target.elem elems) _ _ _
  | .map m layout pairs =>
    unfold wrap
    split
    · exact .refl _
    · exact retells_toAny _
    · exact .map (retellsPairs_wrap target.elem pairs) _ _ _
  | .binary m op tight left right =>
    unfold wrap
    split
    · exact .refl _
    · exact retells_toAny _
    · exact .binary (retells_wrap target left) (retells_wrap target right) _ _ _ _
  | .group m inner =>
    unfold wrap
    split
    · exact .refl _
    · exact retells_toAny _
    · exact .group (retells_wrap target inner) _ _
  | .var .. | .num .. | .str .. | .bool .. | .call .. | .unary .. | .index .. | .slice .. | .dot ..
  | .assert .. | .any .. =>
    unfold wrap
    split
    · exact retells_toAny _
    · exact .refl _

theorem retellsAll_wrap (target : Ty) (es : List Expr) : RetellsAll es (wrapAll target es) := by
  match es with
  | [] => exact .refl _
  | e :: es => exact .cons (retells_wrap target e) (retellsAll_wrap target es)

theorem retellsPairs_wrap (target : Ty) (ps : List (String × Expr)) :
    RetellsPairs ps (wrapPairs target ps) := by
  match ps with
  | [] => exact ⟨rfl, id⟩
  | (key, e) :: ps => exact .cons key (retells_wrap target e) (retellsPairs_wrap target ps)

end

theorem retellsAll_map_wrap (target : Ty) (es : List Expr) : RetellsAll es (es.map (wrap target)) := by
  induction es with
  | nil => exact .refl _
  | cons e es ih => exact .cons (retells_wrap target e) ih

theorem retellsPairs_map_wrap (target : Ty) (ps : List (String × Expr)) :
    RetellsPairs ps (ps.map fun (k, v) => (k, v.wrap target)) := by
  induction ps with
  | nil => exact ⟨rfl, id⟩
  | cons p ps ih => exact .cons p.1 (retells_wrap target p.2) ih

theorem retellsAll_zipWith_wrap (es : List Expr) (params : List Var) (h : params.length = es.length) :
    RetellsAll es (es.zipWith (fun e p => e.wrap p.ty) params) := by
  induction es generalizing params with
  | nil => exact .refl _
  | cons e es ih =>
    cases params with
    | nil => cases h
    | cons p params => exact .cons (retells_wrap p.ty e) (ih params (Nat.succ.inj h))

end Expr

theorem Parsing.retells_joinable (op : BinaryOp) (left right : Expr) :
    left.Retells (joinable op left right).1 ∧ right.Retells (joinable op left right).2 := by
  unfold joinable
  split
  · exact ⟨.refl _, .refl _⟩
  split
  · exact ⟨.refl _, Expr.retells_wrap _ _⟩
  split
  · exact ⟨Expr.retells_wrap _ _, .refl _⟩
  · exact ⟨.refl _, .refl _⟩

/-! ### Growing lists -/

namespace Expr

theorem wordsAll_append (es fs : List Expr) : wordsAll (es ++ fs) = wordsAll es ++ wordsAll fs := by
  induction es with
  | nil => rfl
  | cons e es ih =>
    show e.words ++ wordsAll (es ++ fs) = e.words ++ wordsAll es ++ wordsAll fs
    rw [ih, List.append_assoc]

theorem wordsPairs_append (ps qs : List (String × Expr)) :
    wordsPairs (ps ++ qs) = wordsPairs ps ++ wordsPairs qs := by
  induction ps with
  | nil => rfl
  | cons p ps ih =>
    show ExprWord.name p.1 :: (p.2.words ++ wordsPairs (ps ++ qs)) = _
    rw [ih, ← List.append_assoc]
    rfl

theorem layeredAll_append (es fs : List Expr) : LayeredAll (es ++ fs) ↔ LayeredAll es ∧ LayeredAll fs := by
  induction es with
  | nil => exact ⟨fun h => ⟨trivial, h⟩, And.right⟩
  | cons e es ih =>
    show e.Layered ∧ LayeredAll (es ++ fs) ↔ (e.Layered ∧ LayeredAll es) ∧ LayeredAll fs
    rw [ih, and_assoc]

theorem layeredPairs_append (ps qs : List (String × Expr)) :
    LayeredPairs (ps ++ qs) ↔ LayeredPairs ps ∧ LayeredPairs qs := by
  induction ps with
  | nil => exact ⟨fun h => ⟨trivial, h⟩, And.right⟩
  | cons p ps ih =>
    show p.2.Layered ∧ LayeredPairs (ps ++ qs) ↔ (p.2.Layered ∧ LayeredPairs ps) ∧ LayeredPairs qs
    rw [ih, and_assoc]

end Expr

end TinyScript
