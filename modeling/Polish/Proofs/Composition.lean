import Polish.Proofs.Rules

/-! The rules are put together from single steps, so what holds of the steps, and goes over from the parts of a
    computation to the whole, holds of the rules. What opens a group is left out of the steps: it is done only
    where the token is a parenthesis, so some things hold of the rules that do not hold of it. -/

namespace Polish
open ParseM

/-- What the steps of the rules have, and what a computation has when its parts have it. -/
structure Composed (P : {α : Type} → ParseM α → Prop) : Prop where
  pure {α : Type} (value : α) : P (pure value : ParseM α)
  bind {α β : Type} {first : ParseM α} {second : α → ParseM β} :
    P first → (∀ value, P (second value)) → P (first >>= second)
  current : P current
  fold (operator : Kind) (power : Power) : P (record (.folding operator power))
  eat (kind : Kind) : kind ≠ .endOfText → P (eat kind)
  refuse (expected : String) : P (refuse expected : ParseM Tree)
  tooHigh (position : Position) : P (throw ⟨.tooDeep maxHeight, position⟩ : ParseM Tree)
  leaveGroup : P leaveGroup

namespace Composed
variable {P : {α : Type} → ParseM α → Prop} {power : Power} {operand group inner : ParseM Tree}

theorem chain (composed : Composed P) (h : P operand) (left : Tree) : P (chain power operand left) := by
  -- The measure is the height that is left for the tree, as in the chain itself.
  induction hm : maxHeight - left.height using Nat.strongRecOn generalizing left with
  | ind measure ih =>
    rw [ParseM.chain]
    refine composed.bind composed.current fun token => ?_
    split
    · next hp =>
      have more : token.kind ≠ .endOfText := (Kind.of_isSome_power? (Option.isSome_of_eq_some hp)).1
      refine composed.bind (composed.eat token.kind more) fun operator => composed.bind h fun right => ?_
      refine composed.bind (composed.fold operator.kind power) fun _ => ?_
      dsimp only
      split
      · next low =>
        have lower := left.height_left_lt_combine operator right
        exact ih _ (by omega) _ rfl
      · exact composed.tooHigh _
    · exact composed.pure left

theorem operation (composed : Composed P) (h : P operand) : P (operand >>= ParseM.chain power operand) :=
  composed.bind h (composed.chain h)

/-- If the reading of a group has the property too, then all of a factor does. -/
theorem factorOf (composed : Composed P) (h : P group) : P (factorOf group) := by
  refine composed.bind composed.current fun token => ?_
  split
  · exact composed.bind (composed.eat .integer nofun) fun token => composed.pure _
  · split
    · exact h
    · exact composed.refuse _

/-- What follows the opening of a group. -/
theorem grouped (composed : Composed P) (h : P inner) :
    P (do
      let _ ← ParseM.eat .openParen
      let tree ← inner
      let _ ← ParseM.eat .closeParen
      ParseM.leaveGroup
      return tree : ParseM Tree) := by
  refine composed.bind (composed.eat .openParen nofun) fun _ => composed.bind h fun tree => ?_
  refine composed.bind (composed.eat .closeParen nofun) fun _ => composed.bind composed.leaveGroup fun _ => ?_
  exact composed.pure tree

theorem rule_of_factorOf (composed : Composed P) {room : Nat} (h : P (ParseM.factorOf (groupWithin room)))
    (category : Category) : P (category.rule room) := by
  have term : P (Category.rule room .term) := composed.operation h
  cases category with
  | factor => exact h
  | term => exact term
  | formula => exact composed.operation term

/-- If opening a group and refusing to open one have the property as well, every rule has it. -/
theorem rule (composed : Composed P) (enter : P enterGroup) (full : P (refuseDepth : ParseM Tree)) (room : Nat)
    (category : Category) : P (category.rule room) := by
  have group : P (groupWithin room) := by
    induction room with
    | zero => exact full
    | succ room ih =>
      have inner : P (Category.rule room .formula) := composed.rule_of_factorOf (composed.factorOf ih) .formula
      exact composed.bind enter fun _ => composed.grouped inner
  exact composed.rule_of_factorOf (composed.factorOf group) category

end Composed

end Polish
