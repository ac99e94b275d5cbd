import Std.Data.HashMap

/-! # Slots of variables

Every variable has a global slot of its own, also one that hides another. Blocks nest names, and
slots are never given out twice. -/

namespace TinyScript.Bytecode

/-- Names with their slots, by blocks. -/
structure Symbols where
  globals : Std.HashMap String Nat := ∅
  /-- The open blocks, innermost first. -/
  blocks : List (Std.HashMap String Nat) := []
  /-- The number of slots given out. -/
  size : Nat := 0

namespace Symbols

instance : Inhabited Symbols := ⟨{}⟩

def isEmpty (s : Symbols) : Bool :=
  s.size == 0

/-- Opens a block. -/
def nest (s : Symbols) : Symbols :=
  { s with blocks := ∅ :: s.blocks }

/-- Closes the innermost block. -/
def unnest (s : Symbols) : Symbols :=
  { s with blocks := s.blocks.tail }

/-- The slot that a name gets in the innermost block, or has there already. -/
def define (s : Symbols) (name : String) : Nat × Symbols :=
  match s.blocks with
  | [] =>
    match s.globals[name]? with
    | some slot => (slot, s)
    | none => (s.size, { s with globals := s.globals.insert name s.size, size := s.size + 1 })
  | block :: outer =>
    match block[name]? with
    | some slot => (slot, s)
    | none =>
      (s.size, { s with blocks := block.insert name s.size :: outer, size := s.size + 1 })

/-- The slot of a name in the innermost block that has it. -/
def resolve? (s : Symbols) (name : String) : Option Nat :=
  (s.blocks.findSome? (·[name]?)).or s.globals[name]?

end Symbols

end TinyScript.Bytecode
