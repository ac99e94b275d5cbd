import Std.Data.HashMap

/-! # Maps in insertion order

The pairs of a map value: a hash table for look-ups, and the keys in the order in which they were
first inserted. -/

namespace TinyScript

/-- Keys with values, in insertion order. -/
structure Pairs (α : Type) where
  order : Array String
  values : Std.HashMap String α

namespace Pairs

variable {α : Type}

def empty : Pairs α := ⟨#[], ∅⟩

instance : Inhabited (Pairs α) := ⟨empty⟩

def get? (p : Pairs α) (key : String) : Option α :=
  p.values[key]?

def contains (p : Pairs α) (key : String) : Bool :=
  p.values.contains key

/-- Sets the value of a key. A new key comes last, an old one stays where it is. -/
def insert (p : Pairs α) (key : String) (value : α) : Pairs α :=
  if p.values.contains key then ⟨p.order, p.values.insert key value⟩
  else ⟨p.order.push key, p.values.insert key value⟩

/-- Removes a key with its value. -/
def erase (p : Pairs α) (key : String) : Pairs α :=
  if p.values.contains key then ⟨p.order.filter (· != key), p.values.erase key⟩ else p

def size (p : Pairs α) : Nat :=
  p.order.size

def isEmpty (p : Pairs α) : Bool :=
  p.order.isEmpty

/-- The keys in insertion order. -/
def keys (p : Pairs α) : List String :=
  p.order.toList

/-- The pairs in insertion order. -/
def toList (p : Pairs α) : List (String × α) :=
  p.keys.filterMap fun k => (p.get? k).map (k, ·)

/-- Pairs from a list; of two values for a key the later one counts. -/
def ofList (l : List (String × α)) : Pairs α :=
  l.foldl (fun p (k, v) => p.insert k v) empty

end Pairs

end TinyScript
