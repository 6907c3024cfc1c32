import Polish.Position

/-! Tokens: the words of a formula, and the closing one that says that the text has ended. -/

namespace Polish

/-- What a token is for. -/
inductive Kind
  | endOfText
  | integer
  | openParen
  | closeParen
  | plus
  | minus
  | times
  | divide
  deriving DecidableEq

/-- A kind as errors and listings name it. -/
def Kind.name : Kind → String
  | .endOfText => "EOF"
  | .integer => "Integer"
  | .openParen => "LParen"
  | .closeParen => "RParen"
  | .plus => "Plus"
  | .minus => "Minus"
  | .times => "Mul"
  | .divide => "Div"

/-- The kind of token that a character makes by itself. -/
def Kind.ofSymbol? : Char → Option Kind
  | '(' => some .openParen
  | ')' => some .closeParen
  | '+' => some .plus
  | '-' => some .minus
  | '*' => some .times
  | '/' => some .divide
  | _ => none

/-- How tightly an operator holds its operands. -/
inductive Power
  | additive
  | multiplicative
  deriving DecidableEq, Ord

/-- A power as the log names it. -/
def Power.name : Power → String
  | .additive => "Additive"
  | .multiplicative => "Multiplicative"

/-- Exactly the four operators have a power. -/
def Kind.power? : Kind → Option Power
  | .plus | .minus => some .additive
  | .times | .divide => some .multiplicative
  | .endOfText | .integer | .openParen | .closeParen => none

/-- What a token was written as. -/
inductive Literal
  | integer (value : Int64)
  | symbol (character : Char)
  | none
  deriving DecidableEq

/-- A literal as it is shown. What stands for no characters is shown as none. -/
def Literal.text : Literal → String
  | .integer value => value.toInt.repr
  | .symbol character => character.toString
  | .none => ""

/-- A word of a formula with its place, or the end of the text. -/
structure Token where
  kind : Kind
  literal : Literal
  span : Span
  deriving DecidableEq

/-- Names a token in an error. -/
def Token.describe (token : Token) : String :=
  if token.kind = .endOfText then "end of input" else "\x60" ++ token.literal.text ++ "\x60"

/-- Names a token in a listing; the end of the text shows no literal. -/
def Token.entry (token : Token) : String :=
  if token.kind = .endOfText then token.kind.name ++ " ()"
  else token.kind.name ++ " (" ++ token.literal.text ++ ")"

end Polish
