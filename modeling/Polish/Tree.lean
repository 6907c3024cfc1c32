import Polish.Token

/-! The tree of a formula, and its rendering with the operator before its operands. -/

namespace Polish

/-- An operation keeps its height, in levels of operators, and its span, from the start of its left
    operand to the end of its right one. -/
inductive Tree
  | literal (value : Int64) (span : Span)
  | operation (left : Tree) (operator : Token) (right : Tree) (height : Nat) (span : Span)
  deriving DecidableEq

namespace Tree

/-- The place of a tree, without parentheses around it. -/
def span : Tree → Span
  | literal _ span => span
  | operation _ _ _ _ span => span

/-- The levels of operators that a tree keeps with it; a literal has none. -/
def height : Tree → Nat
  | literal _ _ => 0
  | operation _ _ _ height _ => height

/-- Puts two trees under an operator. -/
def combine (left : Tree) (operator : Token) (right : Tree) : Tree :=
  operation left operator right (max left.height right.height + 1) ⟨left.span.start, right.span.stop⟩

@[simp] theorem height_combine (left : Tree) (operator : Token) (right : Tree) :
    (left.combine operator right).height = max left.height right.height + 1 := rfl

theorem height_left_lt_combine (left : Tree) (operator : Token) (right : Tree) :
    left.height < (left.combine operator right).height :=
  Nat.lt_succ_of_le (Nat.le_max_left _ _)

/-- Every operation stands in parentheses, so no rule of precedence is needed to read it. -/
def render : Tree → String
  | literal value _ => (Literal.integer value).text
  | operation left operator right _ _ =>
    "(" ++ operator.literal.text ++ " " ++ left.render ++ " " ++ right.render ++ ")"

end Tree

end Polish
