import TinyScript.Diagnostic
import TinyScript.Expr.Display

/-! # The wording of diagnostics -/

namespace TinyScript

open Text (quote)

/-- The message for a problem. -/
def Problem.message : Problem → String
  | unclosedString => "unterminated string, missing \""
  | malformedString => "invalid string literal"
  | illegalCharacter literal => "illegal character " ++ quote literal
  | malformedNumber literal => quote literal ++ ": invalid float literal"
  | expectedToken expected found =>
    "expected " ++ expected.describe ++ ", got " ++ found.describe
  | expectedLineEnd found => "expected end of line, found " ++ found.describe
  | unexpectedInput found => "unexpected input " ++ found.describe
  | unexpectedToken found => "unexpected " ++ found.describe
  | blankBefore text => "unexpected whitespace before " ++ text
  | blankAfter text => "unexpected whitespace after " ++ text
  | unknownFunction name => "unknown function " ++ quote name
  | unknownVariable name => "unknown variable name " ++ quote name
  | unknownEvent name => "unknown event name " ++ name
  | callNotGrouped name => "function call must be parenthesized: (" ++ name ++ " ...)"
  | anonymousRead => "anonymous variable \"_\" cannot be read"
  | anonymousAssigned => "assignment to \"_\" not allowed"
  | anonymousDeclared => "declaration of anonymous variable \"_\" not allowed here"
  | overridesGlobal name => "cannot override builtin variable " ++ quote name
  | overridesFunction name => "cannot override builtin function " ++ quote name
  | functionRedeclared name => "redeclaration of function " ++ quote name
  | handlerRedeclared name => "redeclaration of on " ++ name
  | globalRedeclared name => "redeclaration of builtin variable " ++ quote name
  | redeclared name => "redeclaration of " ++ quote name
  | declaredAsFunction name =>
    "invalid declaration of " ++ quote name ++ ", already used as function name"
  | unused name => quote name ++ " declared but not used"
  | badResultType found => "invalid return type: " ++ found.describe
  | badVariadic => "invalid variadic parameter, must be used with single type"
  | badTypedDecl name => "invalid type declaration for " ++ quote name
  | badInferredDecl name => "invalid inferred declaration for " ++ quote name
  | noValueDeclared name =>
    "invalid declaration, function " ++ quote name ++ " has no return value"
  | parameterCount expected found =>
    s!"wrong number of parameters expected {expected}, got {found}"
  | parameterType name expected found =>
    "wrong type for parameter " ++ name ++ ", expected " ++ expected.display ++ ", got "
      ++ found.display
  | assignToFunction name =>
    "cannot assign to " ++ quote name ++ " as it is a function not a variable"
  | assignType target found =>
    quote target.display ++ " accepts values of type " ++ target.ty.display ++ ", found "
      ++ found.display
  | assignToStringIndex => "cannot index string on left side of \"=\", only on right"
  | unreachable => "unreachable code"
  | missingReturn => "missing return"
  | emptyBlock => "at least one statement is required here"
  | returnOutside => "return statement not allowed here"
  | returnsValue found => "expected no return value, found " ++ found.display
  | returnType expected found =>
    "expected return value of type " ++ expected.display ++ ", found " ++ found.display
  | breakOutside => "break is not in a loop"
  | rangeEmpty => "range cannot be empty"
  | rangeArguments found =>
    "range with more than one argument must be num, found " ++ found.display
  | rangeType found =>
    "expected num, string, array or map after range, found " ++ found.display
  | rangeCount found => s!"range can take up to 3 num arguments, found {found}"
  | rangeArgumentType index found =>
    "range expects num type for " ++ ordinal index ++ " argument, found " ++ found.display
  | conditionType found => "expected condition of type bool, found " ++ found.display
  | variadicType name expected found =>
    quote name ++ " takes variadic arguments of type " ++ expected.display ++ ", found "
      ++ found.display
  | argumentCount name expected found =>
    quote name ++ " takes " ++ quantity expected "argument" ++ ", found " ++ toString found
  | argumentType name index expected found =>
    quote name ++ " takes " ++ ordinal index ++ " argument of type " ++ expected.display
      ++ ", found " ++ found.display
  | unaryType op expected found =>
    quote op.text ++ " unary expects " ++ expected.display ++ " type, found " ++ found.display
  | mismatched op left right =>
    "mismatched type for " ++ op.text ++ ": " ++ left.display ++ ", " ++ right.display
  | operandType op allowed found =>
    quote op.text ++ " takes " ++ allowed ++ " type, found " ++ found.display
  | notIndexable found =>
    "only array, string and map type can be indexed, found " ++ found.display
  | indexType container expected found =>
    container.name ++ " index expects " ++ expected.display ++ ", found " ++ found.display
  | notSliceable found => "only array and string can be sliced, found " ++ found.display
  | sliceBound found => "slice bounds expect num, found " ++ found.display
  | noFields found => "field access with \".\" expects map type, found " ++ found.display
  | dotWithoutKey found => "expected map key, found " ++ found.name
  | assertUnknownType left => "invalid type in type assertion of " ++ quote left.display
  | assertToAny => "cannot type assert to type any"
  | assertNotAny found =>
    "value of type assertion must be of type any, not " ++ found.display
  | expectedKey found => "expected map key, found " ++ found.describe
  | duplicateKey key => "duplicated map key " ++ quote key

namespace Diagnostic

/-- The message of a diagnostic, without its place. -/
def message (d : Diagnostic) : String :=
  d.problem.message

/-- The message of a diagnostic with its place. -/
def display (d : Diagnostic) : String :=
  d.token.pos.location ++ ": " ++ d.message

/-- Diagnostics, one a line. -/
def displayAll (ds : List Diagnostic) : String :=
  "\n".intercalate (ds.map display)

end Diagnostic

end TinyScript
