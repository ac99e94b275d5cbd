import TinyScript.Expr

/-! # Changing the type of literals

The type of an array or map literal is settled by where it goes. `infer` gives its empty parts
elements of type `any`, and `wrap` fits an expression into a slot of a given type: values that go
into slots of type `any` are wrapped, and literals are retyped element by element. -/

namespace TinyScript.Expr

mutual

/-- Gives the empty literals of an expression elements of type `any`. -/
def infer : Expr → Expr
  | array m layout elems => array ⟨m.token, m.ty.infer⟩ layout (inferAll elems)
  | map m layout pairs => map ⟨m.token, m.ty.infer⟩ layout (inferPairs pairs)
  | group m inner => group ⟨m.token, m.ty.infer⟩ inner.infer
  | binary m op tight left right => binary ⟨m.token, m.ty.infer⟩ op tight left.infer right.infer
  | e => e

def inferAll : List Expr → List Expr
  | [] => []
  | e :: es => e.infer :: inferAll es

def inferPairs : List (String × Expr) → List (String × Expr)
  | [] => []
  | (k, e) :: ps => (k, e.infer) :: inferPairs ps

end

/-- How an expression of type `ty` goes into a slot of type `target`. -/
inductive Fit where
  /-- As it is. -/
  | unchanged
  /-- Wrapped as a whole. -/
  | wrapped
  /-- With its parts fitted, if it is a literal. -/
  | retyped
  deriving DecidableEq, Repr

/-- How an expression of type `ty` goes into a slot of type `target`. -/
def fit (ty target : Ty) : Fit :=
  if target.same ty || target.isGeneric || target.isEmpty then .unchanged
  else if target.isAny then .wrapped
  else if ty.isFixed || ty.kind != target.kind then .unchanged
  else .retyped

/-- Wraps an expression for a slot of type `any`. -/
def toAny (e : Expr) : Expr :=
  any ⟨e.token, .any⟩ e.infer

mutual

/-- Fits an expression into a slot of type `target`. -/
def wrap (target : Ty) : Expr → Expr
  | array m layout elems =>
    match fit m.ty target with
    | .unchanged => array m layout elems
    | .wrapped => toAny (array m layout elems)
    | .retyped => array ⟨m.token, target.unfixed⟩ layout (wrapAll target.elem elems)
  | map m layout pairs =>
    match fit m.ty target with
    | .unchanged => map m layout pairs
    | .wrapped => toAny (map m layout pairs)
    | .retyped => map ⟨m.token, target.unfixed⟩ layout (wrapPairs target.elem pairs)
  | binary m op tight left right =>
    match fit m.ty target with
    | .unchanged => binary m op tight left right
    | .wrapped => toAny (binary m op tight left right)
    | .retyped =>
      binary ⟨m.token, target.unfixed⟩ op tight (wrap target left) (wrap target right)
  | group m inner =>
    match fit m.ty target with
    | .unchanged => group m inner
    | .wrapped => toAny (group m inner)
    | .retyped => group ⟨m.token, target.unfixed⟩ (wrap target inner)
  | e =>
    match fit e.ty target with
    | .wrapped => toAny e
    | _ => e

def wrapAll (target : Ty) : List Expr → List Expr
  | [] => []
  | e :: es => wrap target e :: wrapAll target es

def wrapPairs (target : Ty) : List (String × Expr) → List (String × Expr)
  | [] => []
  | (k, e) :: ps => (k, wrap target e) :: wrapPairs target ps

end

end TinyScript.Expr
