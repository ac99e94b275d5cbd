import TinyScript.Signature

/-! # Built-in functions

The functions that every program can use: their names and signatures. -/

namespace TinyScript

/-- The built-in functions. -/
inductive Builtin where
  -- text and values
  | read | cls | print | printf | sprint | sprintf
  | join | split | upper | lower | index | startsWith | endsWith | trim | replace
  | strToNum | strToBool | typeName | len | has | del
  | sleep | exit | panic
  -- numbers
  | rand | rand1 | min | max | pow | atan2 | floor | ceil | round | log | sqrt | sin | cos
  -- drawing
  | move | line | rect | circle | width | color | colour | stroke | fill | linecap | text | clear
  | grid | gridn | poly | ellipse | dash | font
  deriving DecidableEq, Repr, Inhabited

namespace Builtin

/-- All built-in functions. -/
def all : List Builtin :=
  [ read, cls, print, printf, sprint, sprintf,
    join, split, upper, lower, index, startsWith, endsWith, trim, replace,
    strToNum, strToBool, typeName, len, has, del, sleep, exit, panic,
    rand, rand1, min, max, pow, atan2, floor, ceil, round, log, sqrt, sin, cos,
    move, line, rect, circle, width, color, colour, stroke, fill, linecap, text, clear,
    grid, gridn, poly, ellipse, dash, font ]

theorem mem_all (b : Builtin) : b ∈ all := by
  cases b <;> decide

/-- The name that programs call. -/
def name : Builtin → String
  | read => "read" | cls => "cls" | print => "print" | printf => "printf" | sprint => "sprint"
  | sprintf => "sprintf" | join => "join" | split => "split" | upper => "upper"
  | lower => "lower" | index => "index" | startsWith => "startswith" | endsWith => "endswith"
  | trim => "trim" | replace => "replace" | strToNum => "str2num" | strToBool => "str2bool"
  | typeName => "typeof" | len => "len" | has => "has" | del => "del" | sleep => "sleep"
  | exit => "exit" | panic => "panic" | rand => "rand" | rand1 => "rand1" | min => "min"
  | max => "max" | pow => "pow" | atan2 => "atan2" | floor => "floor" | ceil => "ceil"
  | round => "round" | log => "log" | sqrt => "sqrt" | sin => "sin" | cos => "cos"
  | move => "move" | line => "line" | rect => "rect" | circle => "circle" | width => "width"
  | color => "color" | colour => "colour" | stroke => "stroke" | fill => "fill"
  | linecap => "linecap" | text => "text" | clear => "clear" | grid => "grid"
  | gridn => "gridn" | poly => "poly" | ellipse => "ellipse" | dash => "dash" | font => "font"

/-- The built-in function of a name. -/
def ofName? (name : String) : Option Builtin :=
  all.find? (·.name == name)

/-- The parameters with their types. -/
def params : Builtin → List (String × Ty)
  | join => [("arr", .anyArray), ("sep", .string)]
  | split => [("s", .string), ("sep", .string)]
  | upper | lower | strToNum | strToBool => [("s", .string)]
  | index => [("s", .string), ("substr", .string)]
  | startsWith => [("s", .string), ("prefix", .string)]
  | endsWith => [("s", .string), ("suffix", .string)]
  | trim => [("s", .string), ("cutset", .string)]
  | replace => [("s", .string), ("old", .string), ("new", .string)]
  | typeName | len => [("a", .any)]
  | has | del => [("m", .anyMap), ("key", .string)]
  | sleep => [("seconds", .num)]
  | rand => [("upper", .num)]
  | exit | floor | ceil | round | log | sqrt | sin | cos | circle | width => [("n", .num)]
  | min | max | pow | atan2 | move | line | rect => [("x", .num), ("y", .num)]
  | panic | color | colour | stroke | fill | linecap | text => [("s", .string)]
  | gridn => [("unit", .num), ("color", .string)]
  | font => [("props", .anyMap)]
  | read | cls | print | printf | sprint | sprintf | rand1 | clear | grid | poly | ellipse
  | dash => []

/-- The parameter that takes any number of arguments, with their type. -/
def variadic : Builtin → Option (String × Ty)
  | print | printf | sprint | sprintf => some ("a", .any)
  | clear => some ("color", .string)
  | poly => some ("vertices", .array .num)
  | ellipse => some ("n", .num)
  | dash => some ("segments", .num)
  | _ => none

/-- The type of the result. -/
def result : Builtin → Ty
  | read | sprint | sprintf | join | upper | lower | trim | replace | typeName => .string
  | split => .array .string
  | startsWith | endsWith | strToBool | has => .bool
  | index | strToNum | len | rand | rand1 | min | max | pow | atan2 | floor | ceil | round | log
  | sqrt | sin | cos => .num
  | cls | print | printf | del | sleep | exit | panic | move | line | rect | circle | width | color
  | colour | stroke | fill | linecap | text | clear | grid | gridn | poly | ellipse | dash
  | font => .none

def signature (b : Builtin) : Signature where
  name := b.name
  params := b.params.map fun (n, t) => .builtin n t
  variadic := b.variadic.map fun (n, t) => .builtin n t
  result := b.result

end Builtin

end TinyScript
