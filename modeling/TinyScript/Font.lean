import TinyScript.Host
import TinyScript.Value

/-! # Font properties

Which properties a font has, and which values they take. -/

namespace TinyScript.Font

/-- The texts that a property allows, if it does not allow all. -/
def allowed? : String → Option (List String)
  | "align" => some ["left", "center", "right"]
  | "baseline" => some ["top", "middle", "bottom", "alphabetic"]
  | _ => none

/-- A property that is a text. -/
def textProperty (key : String) : Value → Except BadArguments FontValue
  | .str s =>
    match allowed? key with
    | some options => if s ∈ options then .ok (.str s) else .error (.fontOption key options s)
    | none => .ok (.str s)
  | v => .error (.fontType key "string" v.typeOf.display)

/-- A property that is a number. -/
def numProperty (key : String) (isPositive : Bool) : Value → Except BadArguments FontValue
  | .num x => if isPositive && x ≤ 0.0 then .error (.fontPositive key) else .ok (.num x)
  | v => .error (.fontType key "num" v.typeOf.display)

/-- The value of a property, if the property takes it. -/
def property (key : String) (v : Value) : Except BadArguments FontValue :=
  match key with
  | "family" | "style" | "baseline" | "align" => textProperty key v.unwrap
  | "size" | "weight" => numProperty key true v.unwrap
  | "letterspacing" => numProperty key false v.unwrap
  | _ => .error (.fontProperty key)

/-- All properties, if they take their values. -/
def properties (pairs : List (String × Value)) : Except BadArguments (List (String × FontValue)) :=
  pairs.mapM fun (key, v) => do return (key, ← property key v)

end TinyScript.Font
