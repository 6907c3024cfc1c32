import Polish.Proofs.Extension
import Polish.Proofs.Rules

/-! Two texts side by side. If what is read from both corresponds, token by token, then the parser does the same on
    both, and its trees and errors correspond. How places in the two texts correspond is left open, and so is how
    cursors do, as long as reading a token keeps it. -/

namespace Polish
open ParseM

/-- How places in two texts correspond: those where something starts and those where something stops. -/
structure Places where
  start : Position → Position → Prop
  stop : Position → Position → Prop

namespace Places
variable (places : Places)

/-- The spans start and stop at places that correspond. -/
structure Spans (one other : Span) : Prop where
  start : places.start one.start other.start
  stop : places.stop one.stop other.stop

/-- The tokens say the same at places that correspond. -/
structure Tokens (one other : Token) : Prop where
  kind : one.kind = other.kind
  literal : one.literal = other.literal
  span : places.Spans one.span other.span

/-- The errors have the same fault at places that correspond. -/
structure Errors (one other : Error) : Prop where
  fault : one.fault = other.fault
  position : places.start one.position other.position

/-- The trees say the same, with places that correspond throughout. -/
inductive Trees : Tree → Tree → Prop
  | literal {value : Int64} {span span' : Span} : places.Spans span span' →
      Trees (.literal value span) (.literal value span')
  | operation {left left' right right' : Tree} {operator operator' : Token} {height : Nat} {span span' : Span} :
      Trees left left' → places.Tokens operator operator' → Trees right right' → places.Spans span span' →
      Trees (.operation left operator right height span) (.operation left' operator' right' height span')

/-- Both are values that correspond, or both are errors that do. -/
inductive Results {α : Type} (R : α → α → Prop) : Except Error α → Except Error α → Prop
  | ok {value value' : α} : R value value' → Results R (.ok value) (.ok value')
  | error {error error' : Error} : places.Errors error error' → Results R (.error error) (.error error')

/-- Results with the states behind them. Nothing is asked of the states behind an error. -/
inductive Outcomes {α σ : Type} (R : α → α → Prop) (S : α → σ → σ → Prop) :
    Except Error α × σ → Except Error α × σ → Prop
  | ok {value value' : α} {after after' : σ} : R value value' → S value after after' →
      Outcomes R S (.ok value, after) (.ok value', after')
  | error {error error' : Error} {after after' : σ} : places.Errors error error' →
      Outcomes R S (.error error, after) (.error error', after')

variable {places}

theorem Tokens.describe_eq {one other : Token} (h : places.Tokens one other) : one.describe = other.describe := by
  rw [Token.describe, Token.describe, h.kind, h.literal]

namespace Trees
variable {left left' right right' : Tree} {operator operator' : Token}

theorem height_eq (h : places.Trees left left') : left.height = left'.height := by
  cases h <;> rfl

theorem span (h : places.Trees left left') : places.Spans left.span left'.span := by
  cases h with
  | literal spans | operation _ _ _ spans => exact spans

theorem render_eq (h : places.Trees left left') : left.render = left'.render := by
  induction h with
  | literal => rfl
  | operation _ operators _ _ ihl ihr => rw [Tree.render, Tree.render, operators.literal, ihl, ihr]

theorem combine (hl : places.Trees left left') (operators : places.Tokens operator operator')
    (hr : places.Trees right right') :
    places.Trees (left.combine operator right) (left'.combine operator' right') := by
  rw [Tree.combine, Tree.combine, hl.height_eq, hr.height_eq]
  exact .operation hl operators hr ⟨hl.span.start, hr.span.stop⟩

end Trees

/-- Where equal things are made of values that correspond, the results differ in the places of errors alone. -/
theorem Results.mapError_map {α β : Type} {R : α → α → Prop} {f : α → β} {one other : Except Error α}
    (h : places.Results R one other) (hf : ∀ value value', R value value' → f value = f value') :
    (one.map f).mapError Error.fault = (other.map f).mapError Error.fault := by
  cases h with
  | ok values => exact congrArg Except.ok (hf _ _ values)
  | error errors => exact congrArg Except.error errors.fault

theorem Outcomes.results {α σ : Type} {R : α → α → Prop} {S : α → σ → σ → Prop} {one other : Except Error α × σ}
    (h : places.Outcomes R S one other) : places.Results R one.1 other.1 := by
  cases h with
  | ok values _ => exact .ok values
  | error errors => exact .error errors

end Places

/-- How cursors of two texts correspond: the tokens read next do, and, unless these end the texts, so do the
    cursors behind them. -/
structure Correspondence extends Places where
  cursors : Cursor → Cursor → Prop
  next {one other : Cursor} : cursors one other →
    toPlaces.Outcomes toPlaces.Tokens (fun token after after' => token.kind ≠ .endOfText → cursors after after')
      one.next other.next

namespace Correspondence
variable (correspondence : Correspondence)

/-- What is behind the end of a text is never read, so nothing is asked of cursors there. -/
structure Parsers (one other : Parser) : Prop where
  current : correspondence.Tokens one.current other.current
  depth : one.depth = other.depth
  cursor : one.current.kind ≠ .endOfText → correspondence.cursors one.cursor other.cursor

/-- On parsers that correspond, both computations fail or both give values by which they correspond again. -/
def Agree {α : Type} (R : α → α → Prop) (action action' : ParseM α) : Prop :=
  ∀ one other, correspondence.Parsers one other →
    correspondence.Outcomes R (fun _ => correspondence.Parsers) (action one) (action' other)

variable {correspondence} {α β : Type} {R : α → α → Prop} {S : β → β → Prop}

theorem Agree.bind {first first' : ParseM α} {second second' : α → ParseM β} (h : correspondence.Agree R first first')
    (h' : ∀ value value', R value value' → correspondence.Agree S (second value) (second' value')) :
    correspondence.Agree S (first >>= second) (first' >>= second') := by
  intro one other parsers
  have outcomes := h one other parsers
  rw [run_bind, run_bind]
  generalize first one = here, first' other = here' at outcomes
  cases outcomes with
  | ok values parsers => exact h' _ _ values _ _ parsers
  | error errors => exact .error errors

/-! ### Single steps -/

theorem agree_pure {value value' : α} (h : R value value') :
    correspondence.Agree R (pure value) (pure value') :=
  fun _ _ parsers => .ok h parsers

theorem agree_current : correspondence.Agree correspondence.Tokens current current :=
  fun _ _ parsers => .ok parsers.current parsers

theorem agree_record (event event' : Event) :
    correspondence.Agree (fun _ _ => True) (record event) (record event') :=
  fun _ _ parsers => .ok trivial ⟨parsers.current, parsers.depth, parsers.cursor⟩

theorem agree_throw {error error' : Error} (h : correspondence.Errors error error') :
    correspondence.Agree R (throw error) (throw error') :=
  fun _ _ _ => .error h

theorem agree_refuse (expected : String) : correspondence.Agree R (refuse expected) (refuse expected) := by
  refine fun one other parsers => .error ⟨?_, parsers.current.span.start⟩
  rw [Parser.unexpected, Parser.unexpected, parsers.current.describe_eq]

theorem agree_refuseDepth : correspondence.Agree R refuseDepth refuseDepth :=
  fun _ _ parsers => .error ⟨rfl, parsers.current.span.start⟩

theorem agree_enterGroup : correspondence.Agree (fun _ _ => True) enterGroup enterGroup := by
  intro one other parsers
  by_cases lt : one.depth < maxDepth
  · rw [enterGroup_of_lt lt, enterGroup_of_lt (parsers.depth ▸ lt)]
    exact .ok trivial ⟨parsers.current, congrArg (· + 1) parsers.depth, parsers.cursor⟩
  · have lt' : ¬other.depth < maxDepth := parsers.depth ▸ lt
    simp only [enterGroup, if_neg lt, if_neg lt']
    exact agree_refuseDepth one other parsers

theorem agree_leaveGroup : correspondence.Agree (fun _ _ => True) leaveGroup leaveGroup :=
  fun _ _ parsers => .ok trivial ⟨parsers.current, congrArg (· - 1) parsers.depth, parsers.cursor⟩

theorem agree_eat {kind : Kind} (h : kind ≠ .endOfText) :
    correspondence.Agree correspondence.Tokens (eat kind) (eat kind) := by
  intro one other parsers
  by_cases hk : one.current.kind = kind
  · have hk' : other.current.kind = kind := parsers.current.kind ▸ hk
    have outcomes := correspondence.next (parsers.cursor (hk ▸ h))
    generalize hn : one.cursor.next = next, hn' : other.cursor.next = next' at outcomes
    cases outcomes with
    | error errors =>
      rw [eat_of_error hk hn, eat_of_error hk' hn']
      exact .error errors
    | ok tokens cursors =>
      rw [eat_of_next hk hn, eat_of_next hk' hn']
      exact .ok parsers.current ⟨tokens, parsers.depth, cursors⟩
  · have hk' : other.current.kind ≠ kind := parsers.current.kind ▸ hk
    rw [eat_of_ne hk, eat_of_ne hk']
    exact agree_refuse _ one other parsers

/-! ### Rules -/

section
variable {operand group : ParseM Tree}

theorem agree_chain (h : correspondence.Agree correspondence.Trees operand operand) (power : Power) {left left' : Tree}
    (trees : correspondence.Trees left left') :
    correspondence.Agree correspondence.Trees (chain power operand left) (chain power operand left') := by
  -- The measure is the height that is left for the tree, as in the chain itself.
  induction hm : maxHeight - left.height using Nat.strongRecOn generalizing left left' with
  | ind measure ih =>
    rw [chain, chain]
    refine agree_current.bind fun token token' tokens => ?_
    rw [← tokens.kind]
    split
    · next hp =>
      have more : token.kind ≠ .endOfText := (Kind.of_isSome_power? (Option.isSome_of_eq_some hp)).1
      refine (agree_eat more).bind fun operator operator' operators => h.bind fun right right' rights => ?_
      refine (agree_record _ _).bind fun _ _ _ => ?_
      have combined := trees.combine operators rights
      dsimp only
      by_cases low : (left.combine operator right).height ≤ maxHeight
      · have lower := left.height_left_lt_combine operator right
        rw [dif_pos low, dif_pos (combined.height_eq ▸ low)]
        exact ih _ (by omega) combined rfl
      · rw [dif_neg low, dif_neg (combined.height_eq ▸ low)]
        exact agree_throw ⟨rfl, operators.span.start⟩
    · exact agree_pure trees

theorem agree_factorOf (h : correspondence.Agree correspondence.Trees group group) :
    correspondence.Agree correspondence.Trees (factorOf group) (factorOf group) := by
  refine agree_current.bind fun token token' tokens => ?_
  rw [← tokens.kind, ← tokens.literal]
  split
  · have eaten : correspondence.Agree correspondence.Tokens (eat .integer) (eat .integer) := agree_eat nofun
    exact eaten.bind fun token token' tokens => agree_pure (.literal tokens.span)
  · split
    · exact h
    · exact agree_refuse _

theorem agree_formulaOf (h : correspondence.Agree correspondence.Trees group group) :
    correspondence.Agree correspondence.Trees (formulaOf group) (formulaOf group) := by
  have factor := agree_factorOf h
  have term : correspondence.Agree correspondence.Trees (termOf group) (termOf group) :=
    factor.bind fun _ _ => agree_chain factor _
  exact term.bind fun _ _ => agree_chain term _

end

theorem agree_groupWithin (room : Nat) :
    correspondence.Agree correspondence.Trees (groupWithin room) (groupWithin room) := by
  induction room with
  | zero => exact agree_refuseDepth
  | succ room ih =>
    have opened : correspondence.Agree correspondence.Tokens (eat .openParen) (eat .openParen) := agree_eat nofun
    have closed : correspondence.Agree correspondence.Tokens (eat .closeParen) (eat .closeParen) := agree_eat nofun
    refine agree_enterGroup.bind fun _ _ _ => opened.bind fun _ _ _ => ?_
    refine (agree_formulaOf ih).bind fun tree tree' trees => closed.bind fun _ _ _ => ?_
    exact agree_leaveGroup.bind fun _ _ _ => agree_pure trees

theorem agree_formula : correspondence.Agree correspondence.Trees formula formula := by
  intro one other parsers
  rw [formula, formula, ← parsers.depth]
  exact agree_formulaOf (agree_groupWithin _) one other parsers

theorem agree_whole (mode : Mode) : correspondence.Agree correspondence.Trees (whole mode) (whole mode) := by
  refine (agree_record _ _).bind fun _ _ _ => agree_formula.bind fun tree tree' trees => ?_
  refine agree_current.bind fun token token' tokens => ?_
  rw [← tokens.kind]
  split
  · exact agree_pure trees
  · cases mode with
    | strict => exact agree_refuse _
    | lenient => exact (agree_record _ _).bind fun _ _ _ => agree_pure trees

/-! ### Whole texts -/

/-- Cursors that correspond have tokens that do, as many of them, or errors that do. -/
theorem tokens {one other : Cursor} (h : correspondence.cursors one other) :
    correspondence.Results (List.Forall₂ correspondence.Tokens) one.tokens other.tokens := by
  induction one using Cursor.onward generalizing other with
  | step one ih =>
    have outcomes := correspondence.next h
    rw [Cursor.tokens_eq, Cursor.tokens_eq other]
    generalize hn : one.next = next, other.next = next' at outcomes ⊢
    cases outcomes with
    | error errors => exact .error errors
    | @ok token token' after after' tokens cursors =>
      dsimp only
      rw [← tokens.kind]
      split
      · exact .ok (.cons tokens .nil)
      · next more =>
        have rest := ih token after hn more (cursors more)
        generalize after.tokens = results, after'.tokens = results' at rest
        cases rest with
        | error errors => exact .error errors
        | ok all => exact .ok (.cons tokens all)

/-- Texts from whose starts cursors correspond have trees or errors that correspond. -/
theorem parse {text text' : List Char} {label label' : String}
    (h : correspondence.cursors (.ofText text label) (.ofText text' label')) (mode : Mode) :
    correspondence.Results correspondence.Trees (parse text label mode) (parse text' label' mode) := by
  have outcomes := correspondence.next h
  generalize hn : (Cursor.ofText text label).next = next, hn' : (Cursor.ofText text' label').next = next' at outcomes
  cases outcomes with
  | error errors =>
    rw [parse_of_error hn, parse_of_error hn']
    exact .error errors
  | @ok token token' after after' tokens cursors =>
    have parsers : correspondence.Parsers ⟨after, token, 0, Event.ofRead token⟩
        ⟨after', token', 0, Event.ofRead token'⟩ := ⟨tokens, rfl, cursors⟩
    rw [(parse_of_next hn mode).1, (parse_of_next hn' mode).1]
    exact (agree_whole mode _ _ parsers).results

end Correspondence

end Polish
