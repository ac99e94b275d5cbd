import TinyScript.Text.Utf8

/-! # Quoted text

String literals as they are written in a program. `quote` writes one and `unquote` reads the body
of one. Reading knows more escapes than writing uses: bytes by two hexadecimal or three octal
digits, and code points by four or eight hexadecimal digits. -/

namespace TinyScript.Text

/-- The hexadecimal digit of a number below 16. -/
def hexDigit (n : Nat) : Char :=
  if n < 10 then Char.ofNat (48 + n) else Char.ofNat (87 + n)

/-- How one character is written inside quotes. -/
def escape (c : Char) : List Char :=
  if c = '"' then ['\\', '"']
  else if c = '\\' then ['\\', '\\']
  else if c = '\n' then ['\\', 'n']
  else if c = '\r' then ['\\', 'r']
  else if c = '\t' then ['\\', 't']
  else if c = '\x07' then ['\\', 'a']
  else if c = '\x08' then ['\\', 'b']
  else if c = '\x0c' then ['\\', 'f']
  else if c = '\x0b' then ['\\', 'v']
  else if c.toNat < 0x20 ∨ c.toNat = 0x7f then
    ['\\', 'x', hexDigit (c.toNat / 16), hexDigit (c.toNat % 16)]
  else [c]

/-- The body of the string literal for `cs`, without its quotes. -/
def escapeAll (cs : List Char) : List Char :=
  cs.flatMap escape

/-- The string literal for `s`. -/
def quote (s : String) : String :=
  String.ofList ('"' :: (escapeAll s.toList ++ ['"']))

/-! ### Reading -/

/-- The value of a digit in base 16 or below. -/
def digitValue? (base : Nat) (c : Char) : Option Nat :=
  let v :=
    if '0' ≤ c ∧ c ≤ '9' then some (c.toNat - 48)
    else if 'a' ≤ c ∧ c ≤ 'f' then some (c.toNat - 87)
    else if 'A' ≤ c ∧ c ≤ 'F' then some (c.toNat - 55)
    else none
  v.filter (· < base)

/-- The number some digits stand for, most significant first. -/
def digits? (base : Nat) (cs : List Char) : Option Nat :=
  cs.foldlM (fun n c => (digitValue? base c).map (n * base + ·)) 0

/-- The number written in `cs`: at least one digit, with a plus sign allowed in front. -/
def numeral? (base : Nat) (cs : List Char) : Option Nat :=
  let body := if cs.head? = some '+' then cs.tail else cs
  if body.isEmpty then none else digits? base body

/-- The character with code point `n`, if there is one. -/
def codePoint? (n : Nat) : Option Char :=
  if n.isValidChar then some (Char.ofNat n) else none

/-- The character a one-letter escape stands for. -/
def simpleEscape? (c : Char) : Option Char :=
  match c with
  | 'a' => some '\x07'
  | 'b' => some '\x08'
  | 'f' => some '\x0c'
  | 'n' => some '\n'
  | 'r' => some '\r'
  | 't' => some '\t'
  | 'v' => some '\x0b'
  | '\\' => some '\\'
  | '"' => some '"'
  | _ => none

/-- The bytes that the body of a string literal stands for. -/
def unescape : List Char → Option (List UInt8)
  | [] => some []
  | '\\' :: 'x' :: a :: b :: rest => do
    let n ← numeral? 16 [a, b]
    return n.toUInt8 :: (← unescape rest)
  | '\\' :: 'u' :: a :: b :: c :: d :: rest => do
    let n ← numeral? 16 [a, b, c, d]
    let ch ← codePoint? n
    return String.utf8EncodeChar ch ++ (← unescape rest)
  | '\\' :: 'U' :: a :: b :: c :: d :: e :: f :: g :: h :: rest => do
    let n ← numeral? 16 [a, b, c, d, e, f, g, h]
    let ch ← codePoint? n
    return String.utf8EncodeChar ch ++ (← unescape rest)
  | '\\' :: o :: rest =>
    match simpleEscape? o with
    | some ch => (unescape rest).map (String.utf8EncodeChar ch ++ ·)
    | none =>
      match rest with
      | p :: q :: rest => do
        let n ← digits? 8 [o, p, q]
        guard (n < 256)
        return n.toUInt8 :: (← unescape rest)
      | _ => none
  | '\\' :: [] => none
  | c :: rest => (unescape rest).map (String.utf8EncodeChar c ++ ·)

/-- The text that the body of a string literal stands for, or none if an escape is malformed. -/
def unquote (body : List Char) : Option (List Char) :=
  (unescape body).map Utf8.decode

end TinyScript.Text
