import TinyScript.Value

/-! # Formatting by a format text

A format is text with directives: a percent sign, flags, a width, a precision and a verb. The
format is read one character at a time, and mistakes show in the result. -/

namespace TinyScript.Printf

/-- What stands between the percent sign and the verb of a directive. Sizes are words of 64 bits. -/
structure Spec where
  left : Bool := false
  plus : Bool := false
  zero : Bool := false
  width : Option UInt64 := none
  precision : Option UInt64 := none
  deriving DecidableEq, Repr, Inhabited

/-- How far a format has been read. -/
inductive Mode where
  | text
  | flags (spec : Spec)
  | width (spec : Spec)
  | precision (spec : Spec)
  deriving DecidableEq, Repr, Inhabited

/-- What one more character of a format means. -/
inductive Step where
  /-- The character itself is written. -/
  | literal
  /-- The directive goes on. -/
  | more (mode : Mode)
  /-- The character is the verb of a directive. -/
  | verb (spec : Spec)
  deriving DecidableEq, Repr, Inhabited

/-- A size with one more digit, which wraps around at 64 bits. -/
def addDigit (n : Option UInt64) (c : Char) : Option UInt64 :=
  some (n.getD 0 * 10 + (c.toNat - 48).toUInt64)

/-- After the flags: a width, a precision or the verb. -/
def afterFlags (spec : Spec) (c : Char) : Step :=
  if c.isDigit then .more (.width { spec with width := addDigit spec.width c })
  else if c = '.' then .more (.precision { spec with precision := some 0 })
  else .verb spec

/-- What a character means. -/
def step (mode : Mode) (c : Char) : Step :=
  match mode with
  | .text => if c = '%' then .more (.flags {}) else .literal
  | .flags spec =>
    match c with
    | '-' => .more (.flags { spec with left := true })
    | '+' => .more (.flags { spec with plus := true })
    | '0' => .more (.flags { spec with zero := true })
    | ' ' | '#' => .more (.flags spec)
    | c => afterFlags spec c
  | .width spec => afterFlags spec c
  | .precision spec =>
    if c.isDigit then .more (.precision { spec with precision := addDigit spec.precision c })
    else .verb spec

/-! ### Directives -/

/-- Fills up to the width. Zeros go between the sign and the digits of a number. -/
def pad (spec : Spec) (isNum : Bool) (cs : List Char) : List Char :=
  let fill := (spec.width.getD 0).toNat - cs.length
  if spec.left then cs ++ List.replicate fill ' '
  else if spec.zero && isNum then
    match cs with
    | '-' :: ds => '-' :: (List.replicate fill '0' ++ ds)
    | '+' :: ds => '+' :: (List.replicate fill '0' ++ ds)
    | ds => List.replicate fill '0' ++ ds
  else List.replicate fill ' ' ++ cs

/-- Puts a plus sign before a number that is not negative, if the directive asks for it. -/
def signed (spec : Spec) (x : Float) (text : String) : String :=
  if spec.plus && 0.0 ≤ x then "+" ++ text else text

/-- The text of a value under a verb, if the verb takes it. As anywhere, a value that contains itself has
none. -/
def verbText? (s : Store Value) (spec : Spec) (verb : Char) (v : Value) : Option (Option String) :=
  match verb, v with
  | 'v', .num x => some (some (signed spec x (Number.text x)))
  | 'v', v => some (v.display s)
  | 'd', .num x =>
    if Number.isInteger x then some (some (signed spec x (toString (Number.toInt64 x)))) else none
  | 'f', .num x | 'F', .num x =>
    some (some (signed spec x (Number.fixedText x (spec.precision.getD 6).toNat)))
  | 's', .str t =>
    match spec.precision with
    | some p => some (some (String.ofList (t.toList.take p.toNat)))
    | none => some (some t)
  | 's', .array .. | 's', .map .. => some (v.display s)
  | 'q', .str _ | 'q', .array .. | 'q', .map .. => some (v.quoted s)
  | 't', .bool _ => some (v.display s)
  | _, _ => none

/-- A type and a value, as mistakes show them. -/
def typed (s : Store Value) (v : Value) : Option String :=
  (v.display s).map (v.typeOf.display ++ "=" ++ ·)

/-- What a directive writes for a value. -/
def directive (s : Store Value) (spec : Spec) (verb : Char) (v : Value) : Option String :=
  match verbText? s spec verb v with
  | some text =>
    let isNum := match v with
      | .num _ => true
      | _ => false
    text.map fun text => String.ofList (pad spec isNum text.toList)
  | none => (typed s v).map fun text => "%!" ++ String.singleton verb ++ "(" ++ text ++ ")"

/-- What is written for the values that no directive takes. -/
def extra (s : Store Value) (vs : List Value) : Option String :=
  if vs.isEmpty then some ""
  else (vs.mapM (typed s)).map fun texts => "%!(EXTRA " ++ ", ".intercalate texts ++ ")"

/-- Writes the rest of a format with the values that are left, after `done`. -/
def formatFrom (s : Store Value) :
    Mode → List Char → List Value → (done : String) → Option String
  | .text, [], vs, done => (extra s vs).map (done ++ ·)
  | _, [], vs, done => (extra s vs).map (done ++ "%!(NOVERB)" ++ ·)
  | mode, c :: cs, vs, done =>
    match step mode c with
    | .literal => formatFrom s .text cs vs (done.push c)
    | .more mode => formatFrom s mode cs vs done
    | .verb spec =>
      if c = '%' then formatFrom s .text cs vs (done.push '%')
      else
        match vs with
        | v :: vs => (directive s spec c v).bind fun text => formatFrom s .text cs vs (done ++ text)
        | [] => formatFrom s .text cs [] (done ++ "%!" ++ String.singleton c ++ "(MISSING)")

/-- Writes values by a format. Values in slots of type `any` count as what is inside. -/
def format (s : Store Value) (fmt : String) (vs : List Value) : Option String :=
  formatFrom s .text fmt.toList (vs.map Value.unwrap) ""

end TinyScript.Printf
