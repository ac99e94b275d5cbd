/-! # UTF-8 with replacement

Text as bytes and back. Bytes that are not UTF-8 still decode: every longest start of a character
that breaks off becomes one replacement character, and so does every byte that starts none. -/

namespace TinyScript.Text.Utf8

/-- The bytes of a text. -/
def encode (cs : List Char) : List UInt8 :=
  cs.flatMap String.utf8EncodeChar

/-- What stands in for bytes that are not UTF-8. -/
def replacement : Char := '\uFFFD'

/-- A character whose first bytes have been read: how many bytes are owed, the bounds of the next
one, and the value read so far. -/
structure Pending where
  owed : Nat
  lo : UInt8
  hi : UInt8
  value : Nat
  deriving DecidableEq, Repr

/-- What a byte between two characters means. -/
inductive Lead where
  | whole (c : Char)
  | opens (p : Pending)
  | stray
  deriving DecidableEq, Repr

/-- Classifies a byte between two characters. The bounds of the second byte leave out overlong
forms, surrogates and values above the last code point. -/
def lead (b : UInt8) : Lead :=
  if b < 0x80 then .whole (Char.ofNat b.toNat)
  else if b < 0xC2 then .stray
  else if b < 0xE0 then .opens ⟨1, 0x80, 0xBF, b.toNat % 32⟩
  else if b == 0xE0 then .opens ⟨2, 0xA0, 0xBF, b.toNat % 16⟩
  else if b == 0xED then .opens ⟨2, 0x80, 0x9F, b.toNat % 16⟩
  else if b < 0xF0 then .opens ⟨2, 0x80, 0xBF, b.toNat % 16⟩
  else if b == 0xF0 then .opens ⟨3, 0x90, 0xBF, b.toNat % 8⟩
  else if b < 0xF4 then .opens ⟨3, 0x80, 0xBF, b.toNat % 8⟩
  else if b == 0xF4 then .opens ⟨3, 0x80, 0x8F, b.toNat % 8⟩
  else .stray

/-- The value with one more byte of six bits. -/
def Pending.add (p : Pending) (b : UInt8) : Nat :=
  p.value * 64 + b.toNat % 64

/-- Decodes with a character possibly under way. -/
def decodeFrom : Option Pending → List UInt8 → List Char
  | none, [] => []
  | some _, [] => [replacement]
  | none, b :: bs =>
    match lead b with
    | .whole c => c :: decodeFrom none bs
    | .opens p => decodeFrom (some p) bs
    | .stray => replacement :: decodeFrom none bs
  | some p, b :: bs =>
    if p.lo ≤ b ∧ b ≤ p.hi then
      if p.owed ≤ 1 then Char.ofNat (p.add b) :: decodeFrom none bs
      else decodeFrom (some ⟨p.owed - 1, 0x80, 0xBF, p.add b⟩) bs
    else
      replacement ::
        match lead b with
        | .whole c => c :: decodeFrom none bs
        | .opens q => decodeFrom (some q) bs
        | .stray => replacement :: decodeFrom none bs

/-- The text of some bytes, with replacement characters where they are not UTF-8. -/
def decode (bs : List UInt8) : List Char :=
  decodeFrom none bs

end TinyScript.Text.Utf8
