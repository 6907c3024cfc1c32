import Polish.Parser.Basic

/-! The rules of formulas.

      formula := term (("+" | "-") term)*
      term    := factor (("*" | "/") factor)*
      factor  := integer | "(" formula ")"

    Operators of one power group to the left, and a chain of them is folded as it is read. The rules
    take the reading of a parenthesised group as a parameter, which `group` supplies for the number
    of groups that may still be opened. -/

namespace Polish

namespace ParseM

/-- Reads on after a first operand: further operands, joined by operators of the given power. -/
def chain (power : Power) (operand : ParseM Tree) (left : Tree) : ParseM Tree := do
  let token ← current
  if token.kind.power? = some power then
    let operator ← eat token.kind
    let right ← operand
    record (.folding operator.kind power)
    let tree := left.combine operator right
    -- The height is looked at last, when both operands have been consumed and the operation is recorded.
    if low : tree.height ≤ maxHeight then
      have : maxHeight - tree.height < maxHeight - left.height :=
        have lower := left.height_left_lt_combine operator right
        Nat.sub_lt_sub_left (Nat.lt_of_lt_of_le lower low) lower
      chain power operand tree
    else throw ⟨.tooDeep maxHeight, operator.span.start⟩
  else return left
termination_by maxHeight - left.height

/-- The fold of a chain, one operator at a time. -/
theorem run_chain (power : Power) (operand : ParseM Tree) (left : Tree) (parser : Parser) :
    chain power operand left parser =
      if parser.current.kind.power? = some power then
        match eat parser.current.kind parser with
        | (.error error, after) => (.error error, after)
        | (.ok operator, between) =>
          match operand between with
          | (.error error, after) => (.error error, after)
          | (.ok right, after) =>
            let after := { after with log := after.log.push (.folding operator.kind power) }
            if (left.combine operator right).height ≤ maxHeight then
              chain power operand (left.combine operator right) after
            else (.error ⟨.tooDeep maxHeight, operator.span.start⟩, after)
      else (.ok left, parser) := by
  rw [chain]
  simp only [run_bind, current]
  split
  · simp only [run_bind]
    rcases eat parser.current.kind parser with ⟨_ | operator, between⟩
    · rfl
    · simp only
      rcases operand between with ⟨_ | right, after⟩
      · rfl
      · simp only [record]
        split <;> rfl
  · rfl

/-- Reads an integer or a group. -/
def factorOf (group : ParseM Tree) : ParseM Tree := do
  let token ← current
  match token.literal with
  | .integer value =>
    let token ← eat .integer
    return .literal value token.span
  | _ => if token.kind = .openParen then group else refuse "an operand"

/-- Reads factors joined by operators that multiply or divide. -/
def termOf (group : ParseM Tree) : ParseM Tree := do
  chain .multiplicative (factorOf group) (← factorOf group)

/-- Reads terms joined by operators that add or subtract. -/
def formulaOf (group : ParseM Tree) : ParseM Tree := do
  chain .additive (termOf group) (← termOf group)

/-- Reads a group where up to `room` groups may be opened inside each other. -/
def groupWithin : Nat → ParseM Tree
  | 0 => refuseDepth
  | room + 1 => do
    -- The group is open before its parenthesis is consumed, and stays so after an error.
    enterGroup
    let _ ← eat .openParen
    let tree ← formulaOf (groupWithin room)
    let _ ← eat .closeParen
    leaveGroup
    return tree

/-- Reads a group. The groups already open count against the limit. -/
def group : ParseM Tree := fun parser =>
  groupWithin (maxDepth - parser.depth) parser

/-- Reads a factor, with as many groups in it as may still be opened. -/
def factor : ParseM Tree := fun parser =>
  factorOf (groupWithin (maxDepth - parser.depth)) parser

/-- Reads a term, with as many groups in it as may still be opened. -/
def term : ParseM Tree := fun parser =>
  termOf (groupWithin (maxDepth - parser.depth)) parser

/-- Reads a formula, with as many groups in it as may still be opened. -/
def formula : ParseM Tree := fun parser =>
  formulaOf (groupWithin (maxDepth - parser.depth)) parser

/-- While another group may be opened, a group is a formula between parentheses, and the bound of
    `groupWithin` is never met. -/
theorem group_of_lt {parser : Parser} (h : parser.depth < maxDepth) :
    group parser =
      (do
        enterGroup
        let _ ← eat .openParen
        let tree ← formula
        let _ ← eat .closeParen
        leaveGroup
        return tree : ParseM Tree) parser := by
  obtain ⟨room, hroom⟩ : ∃ room, maxDepth - parser.depth = room + 1 :=
    ⟨maxDepth - parser.depth - 1, by omega⟩
  have entered : enterGroup parser = (.ok (), { parser with depth := parser.depth + 1 }) := by
    simp [enterGroup, h]
  simp only [group, hroom, groupWithin, run_bind, entered]
  rcases eaten : eat .openParen { parser with depth := parser.depth + 1 } with ⟨_ | token, after⟩
  · rfl
  · have left : maxDepth - after.depth = room := by
      rw [depth_eat eaten]
      simp only
      omega
    simp only [formula, left]

/-- With all groups open, a further one is refused before its parenthesis is consumed. -/
theorem group_of_le {parser : Parser} (h : maxDepth ≤ parser.depth) :
    group parser = (.error parser.tooDeep, parser) := by
  simp only [group, Nat.sub_eq_zero_of_le h, groupWithin, refuseDepth]

/-- Reads a formula and looks at what follows it. -/
def whole (mode : Mode) : ParseM Tree := do
  record (.began mode)
  let tree ← formula
  let token ← current
  if token.kind = .endOfText then return tree
  else
    match mode with
    | .strict => refuse "end of input"
    | .lenient =>
      record (.trailing token.span.start.offset)
      return tree

end ParseM

end Polish
