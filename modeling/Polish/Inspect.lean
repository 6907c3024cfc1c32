import Polish.Text.Quoted
import Polish.Tree

/-! The inspected form of a tree, with every field by its name, for the log. -/

namespace Polish

/-- Writes named fields between braces. -/
def inspectFields (name : String) (fields : List (String × String)) : String :=
  name ++ " \x7b " ++ ", ".intercalate (fields.map fun field => field.1 ++ ": " ++ field.2) ++ " \x7d"

/-- An offset and the label, quoted. -/
def Position.inspect (position : Position) : String :=
  "Position(" ++ position.offset.toNat.repr ++ ", " ++ quoteString position.label ++ ")"

/-- Both ends of a span. -/
def Span.inspect (span : Span) : String :=
  inspectFields "Span" [("start", span.start.inspect), ("end", span.stop.inspect)]

/-- What a token was written as, with a character quoted. -/
def Literal.inspect : Literal → String
  | .integer value => "Integer(" ++ value.toInt.repr ++ ")"
  | .symbol character => "Symbol(" ++ quoteChar character ++ ")"
  | .none => "None"

/-- A token with its kind, its literal and its span. -/
def Token.inspect (token : Token) : String :=
  inspectFields "Token"
    [("kind", token.kind.name), ("literal", token.literal.inspect), ("span", token.span.inspect)]

/-- A tree down to its literals. -/
def Tree.inspect : Tree → String
  | literal value span =>
    "Literal(" ++ inspectFields "LiteralExpr" [("value", value.toInt.repr), ("span", span.inspect)] ++ ")"
  | operation left operator right height span =>
    "BinaryOp(" ++
      inspectFields "BinaryExpr"
        [("left", left.inspect), ("operator", operator.inspect), ("right", right.inspect),
          ("height", height.repr), ("span", span.inspect)] ++
      ")"

end Polish
