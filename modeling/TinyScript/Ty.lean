/-! # Types

Static types of the language. A type is a kind, and arrays and maps have an element type below it.
A mark says that a value of the type lives in storage, such as a variable: a stored array or map
keeps its type, while the type of a literal can still change to fit where the literal goes. -/

namespace TinyScript

/-- The kinds of types. `none` is what functions without a result return, and the element type of
empty literals. -/
inductive Kind where
  | illegal | num | string | bool | any | array | map | none
  deriving DecidableEq, Repr, Inhabited

namespace Kind

/-- The name of a kind. -/
def name : Kind → String
  | .illegal => "illegal" | .num => "num" | .string => "string" | .bool => "bool"
  | .any => "any" | .array => "array" | .map => "map" | .none => "none"

/-- How a kind is written in a type. -/
def display : Kind → String
  | .illegal => "ILLEGAL" | .array => "[]" | .map => "\x7b\x7d" | k => k.name

/-- Whether values of the kind have elements. -/
def isComposite : Kind → Bool
  | .array | .map => true
  | _ => false

end Kind

/-- A type: a kind with its storage mark, alone or over an element type. -/
inductive Ty where
  | leaf (kind : Kind) (fixed : Bool)
  | of (kind : Kind) (fixed : Bool) (elem : Ty)
  deriving DecidableEq, Repr, Inhabited

namespace Ty

def illegal : Ty := leaf .illegal false
def num : Ty := leaf .num false
def string : Ty := leaf .string false
def bool : Ty := leaf .bool false
def any : Ty := leaf .any false
def none : Ty := leaf .none false
/-- The parameter type that takes every array. -/
def anyArray : Ty := leaf .array false
/-- The parameter type that takes every map. -/
def anyMap : Ty := leaf .map false
def array (elem : Ty) : Ty := of .array false elem
def map (elem : Ty) : Ty := of .map false elem
/-- The type of the empty array literal. -/
def emptyArray : Ty := array none
/-- The type of the empty map literal. -/
def emptyMap : Ty := map none

def kind : Ty → Kind
  | leaf k _ | of k _ _ => k

/-- Whether the type is marked as living in storage. -/
def isFixed : Ty → Bool
  | leaf _ f | of _ f _ => f

/-- The element type, or `none` where there is none. -/
def elem : Ty → Ty
  | leaf .. => none
  | of _ _ e => e

def isComposite (t : Ty) : Bool :=
  t.kind.isComposite

/-- Whether this is the type of an empty literal. -/
def isEmpty : Ty → Bool
  | leaf .. => false
  | of k _ e => k.isComposite && e.kind == .none

/-- Whether this is a parameter type that takes every array or every map. -/
def isGeneric : Ty → Bool
  | leaf k _ => k.isComposite
  | of .. => false

def isAny (t : Ty) : Bool :=
  t.kind == .any

/-- Equality of types without their storage marks. -/
def same : Ty → Ty → Bool
  | leaf k _, leaf l _ => k == l
  | of k _ s, of l _ t => k == l && same s t
  | _, _ => false

/-- Marks an array or map type as living in storage. Empty and generic ones cannot be marked. -/
def fixed (t : Ty) : Ty :=
  if t.isComposite && !t.isEmpty && !t.isGeneric then
    match t with
    | leaf k _ => leaf k true
    | of k _ e => of k true e
  else t

/-- The type without storage marks, as new storage has it. -/
def unfixed : Ty → Ty
  | leaf k _ => leaf k false
  | of k _ e => of k false e.unfixed

/-- Whether a slot of type `any`, found below `top` level or at it, takes a value of type `t`. -/
def anyTakes (t : Ty) (top stored : Bool) : Bool :=
  t.kind != .none && t.kind != .illegal && (top || !stored)

/-- One level of `accepts`: `stored` says whether a mark was seen on the way down. -/
def acceptsAt : (slot value : Ty) → (top stored : Bool) → Bool
  | leaf k f, value, top, stored =>
    let stored := stored || value.isFixed
    (leaf k f).same value
      || (k == .any && value.anyTakes top stored)
      || (k == value.kind && k.isComposite)
  | of k f e, value, top, stored =>
    let stored := stored || value.isFixed
    (of k f e).same value
      || (k == .any && value.anyTakes top stored)
      || (k == value.kind &&
        (value.isEmpty ||
          match value with
          | leaf .. => false
          | of _ _ u => e.acceptsAt u false stored))

/-- Whether a value of type `value` can be stored in a slot of this type. -/
def accepts (slot value : Ty) : Bool :=
  slot.acceptsAt value true false

/-- Whether the operands of a binary operator fit each other: equal types, or an empty array or map
against another of its kind. -/
def fits : Ty → Ty → Bool
  | leaf k f, t => (leaf k f).same t || (k == t.kind && t.isEmpty)
  | of k f e, t =>
    (of k f e).same t || (k == t.kind &&
      ((of k f e).isEmpty || t.isEmpty ||
        match t with
        | leaf .. => false
        | of _ _ u => e.fits u))

/-- Gives empty arrays and maps the element type `any`. -/
def infer : Ty → Ty
  | leaf k f => leaf k f
  | of k f e =>
    if !k.isComposite then of k f e
    else if e.kind == .none then of k f any
    else of k f e.infer

/-! ### The element type of a literal -/

/-- The type of an element of type `a` followed by one of type `b`, if arrays and maps of both
kinds have elements of type `below`. -/
def mix (a b below : Ty) : Ty :=
  if a.same b then a
  else if a.isFixed || b.isFixed then any
  else if b.isComposite && a.kind == b.kind then
    if b.isEmpty then a else if a.isEmpty then b else of b.kind false below
  else any

/-- The type of an element of type `a` followed by one of type `b`, or the other way round. The
order changes with every level, and only shows in storage marks. -/
def joinAt : (swapped : Bool) → (a b : Ty) → Ty
  | swapped, of k f s, of l g t =>
    let below := joinAt (!swapped) s t
    if swapped then mix (of l g t) (of k f s) below else mix (of k f s) (of l g t) below
  | swapped, a, b => if swapped then mix b a any else mix a b any

/-- The type of an element of type `a` followed by one of type `b`. -/
def join (a b : Ty) : Ty :=
  joinAt false a b

/-- The element type of an array or map literal with elements of the given types. Elements of
different types make it `any`. -/
def combine : List Ty → Ty
  | [] => none
  | t :: ts => ts.foldl join t

/-- How a type is written. -/
def display : Ty → String
  | leaf k _ => k.display
  | of k f e => if (of k f e).isEmpty then k.display else k.display ++ e.display

end Ty

end TinyScript
