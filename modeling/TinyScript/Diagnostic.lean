import TinyScript.Expr

/-! # Diagnostics

What can be wrong with a source text. A diagnostic is a problem with the token it is reported at,
and all wording is in `Problem.message`. -/

namespace TinyScript

/-- `n` with the letters of its place in a row. -/
def ordinal (n : Nat) : String :=
  let letters :=
    if 11 ≤ n % 100 ∧ n % 100 ≤ 13 then "th"
    else if n % 10 = 1 then "st"
    else if n % 10 = 2 then "nd"
    else if n % 10 = 3 then "rd"
    else "th"
  toString n ++ letters

/-- `n` with a noun in the right number. -/
def quantity (n : Nat) (noun : String) : String :=
  toString n ++ " " ++ noun ++ (if n = 1 then "" else "s")

/-- Problems of a source text. -/
inductive Problem where
  -- tokens
  | unclosedString
  | malformedString
  | illegalCharacter (literal : String)
  | malformedNumber (literal : String)
  | expectedToken (expected found : TokenKind)
  | expectedLineEnd (found : Token)
  | unexpectedInput (found : Token)
  | unexpectedToken (found : Token)
  | blankBefore (text : String)
  | blankAfter (text : String)
  -- names
  | unknownFunction (name : String)
  | unknownVariable (name : String)
  | unknownEvent (name : String)
  | callNotGrouped (name : String)
  | anonymousRead
  | anonymousAssigned
  | anonymousDeclared
  | overridesGlobal (name : String)
  | overridesFunction (name : String)
  | functionRedeclared (name : String)
  | handlerRedeclared (name : String)
  | globalRedeclared (name : String)
  | redeclared (name : String)
  | declaredAsFunction (name : String)
  | unused (name : String)
  -- declarations
  | badResultType (found : Token)
  | badVariadic
  | badTypedDecl (name : String)
  | badInferredDecl (name : String)
  | noValueDeclared (name : String)
  | parameterCount (expected found : Nat)
  | parameterType (name : String) (expected found : Ty)
  -- statements
  | assignToFunction (name : String)
  | assignType (target : Expr) (found : Ty)
  | assignToStringIndex
  | unreachable
  | missingReturn
  | emptyBlock
  | returnOutside
  | returnsValue (found : Ty)
  | returnType (expected found : Ty)
  | breakOutside
  | rangeEmpty
  | rangeArguments (found : Ty)
  | rangeType (found : Ty)
  | rangeCount (found : Nat)
  | rangeArgumentType (index : Nat) (found : Ty)
  | conditionType (found : Ty)
  -- calls
  | variadicType (name : String) (expected found : Ty)
  | argumentCount (name : String) (expected found : Nat)
  | argumentType (name : String) (index : Nat) (expected found : Ty)
  -- operators
  | unaryType (op : UnaryOp) (expected found : Ty)
  | mismatched (op : BinaryOp) (left right : Ty)
  | operandType (op : BinaryOp) (allowed : String) (found : Ty)
  | notIndexable (found : Ty)
  | indexType (container : Kind) (expected found : Ty)
  | notSliceable (found : Ty)
  | sliceBound (found : Ty)
  | noFields (found : Ty)
  | dotWithoutKey (found : TokenKind)
  | assertUnknownType (left : Expr)
  | assertToAny
  | assertNotAny (found : Ty)
  -- literals
  | expectedKey (found : Token)
  | duplicateKey (key : String)
  deriving Inhabited

/-- A problem at a token. -/
structure Diagnostic where
  problem : Problem
  token : Token
  deriving Inhabited

end TinyScript
