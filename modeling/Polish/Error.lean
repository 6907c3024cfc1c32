import Polish.Position
import Polish.Text.Quoted

/-! Why a formula is refused, and how that is worded. -/

namespace Polish

/-- What is wrong with a formula. -/
inductive Fault
  /-- No token begins with the character. -/
  | unknownCharacter (character : Char)
  /-- The token found is not one that may come next. -/
  | unexpected (expected found : String)
  /-- A run of digits stands for a number that a 64-bit integer cannot hold. -/
  | integerOverflow (literal : String)
  /-- The formula has more levels than are accepted. -/
  | tooDeep (limit : Nat)
  deriving DecidableEq

/-- The name of the kind of fault, which begins a diagnostic. -/
def Fault.name : Fault → String
  | .unknownCharacter _ => "LexError"
  | .unexpected _ _ => "SyntaxError"
  | .integerOverflow _ => "IntegerOverflow"
  | .tooDeep _ => "NestingTooDeep"

/-- The hint beside the name in a diagnostic, which shows characters as they are. -/
def Fault.tip : Fault → String
  | .unknownCharacter character => "Unknown character \x60" ++ character.toString ++ "\x60"
  | .unexpected expected found => "Expected " ++ expected ++ ", found " ++ found
  | .integerOverflow literal =>
    "Integer \x60" ++ literal ++ "\x60 is above the limit of " ++ Int64.maxValue.toInt.repr
  | .tooDeep limit => "Expression nests deeper than " ++ limit.repr ++ " levels"

/-- The fault as a sentence, which quotes characters and literals. -/
def Fault.sentence : Fault → String
  | .unknownCharacter character => "unknown character: " ++ quoteChar character
  | .unexpected expected found => "syntax error: expected " ++ expected ++ ", found " ++ found
  | .integerOverflow literal =>
    "integer literal " ++ quoteString literal ++ " does not fit in 64 bits"
  | .tooDeep limit => "expression nests deeper than " ++ limit.repr ++ " levels"

/-- A fault, and the place where it was found. -/
structure Error where
  fault : Fault
  position : Position
  deriving DecidableEq

/-- The fault as a sentence, with its offset. -/
def Error.message (error : Error) : String :=
  error.fault.sentence ++ " at position " ++ error.position.offset.toNat.repr

end Polish
