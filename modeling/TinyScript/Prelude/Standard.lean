import TinyScript.Builtin

/-! # The standard prelude

The functions, events and global variables that every program can use. -/

namespace TinyScript.Prelude

/-- An event with parameters of the given names and types. -/
def event (name : String) (params : List (String × Ty)) : Signature where
  name
  params := params.map fun (n, t) => .builtin n t

/-- Everything that the standard host declares. The globals are set by functions that can fail. -/
def standard : Prelude where
  funcs := Builtin.all.map Builtin.signature
  events :=
    [ event "down" [("x", .num), ("y", .num)],
      event "up" [("x", .num), ("y", .num)],
      event "move" [("x", .num), ("y", .num)],
      event "key" [("k", .string)],
      event "input" [("id", .string), ("val", .string)],
      event "animate" [("elapsed", .num)] ]
  globals := [.builtin "err" .bool, .builtin "errmsg" .string]

end TinyScript.Prelude
