import Polish.Proofs.Grammar
import Polish.Proofs.Run

/-! The rules as relations between the parser before and after. A rule succeeds with a tree, from trees that the rules
    of its parts succeeded with, or it breaks off in one of its parts when those in front of it are read. Each run of
    a rule is one of these, so what holds of all runs is shown for each form that they have. -/

namespace Polish
open ParseM

/-- The rule of a category where up to `room` groups may be opened inside each other. -/
def Category.rule (room : Nat) : Category → ParseM Tree
  | .formula => formulaOf (groupWithin room)
  | .term => termOf (groupWithin room)
  | .factor => factorOf (groupWithin room)

theorem Power.rule_category (power : Power) (room : Nat) :
    power.category.rule room = power.operand.rule room >>= chain power (power.operand.rule room) := by
  cases power <;> rfl

/-- The kind of token that a rule leaves behind what it has read. -/
def Category.Ends : Category → Kind → Prop
  | .formula, kind => kind.power? = none
  | .term, kind => kind.power? ≠ some .multiplicative
  | .factor, _ => True

theorem Power.ends_category {power : Power} {kind : Kind} (h : power.operand.Ends kind)
    (hk : kind.power? ≠ some power) : power.category.Ends kind := by
  cases power with
  | multiplicative => exact hk
  | additive =>
    cases hp : kind.power? with
    | none => exact hp
    | some other =>
      cases other with
      | additive => exact absurd hp hk
      | multiplicative => exact absurd hp h

/-! ### Success and failure -/

/-- The parser `inner` has entered a group and consumed its parenthesis. -/
inductive Parser.Opens (parser : Parser) : Parser → Prop
  | intro {next : Token} {cursor : Cursor} : parser.current.kind = .openParen → parser.depth < maxDepth →
      parser.cursor.next = (.ok next, cursor) → Opens parser (parser.enter.consume next cursor)

/-- A rule reads tokens and makes a tree of them. -/
inductive Succeeds : Category → Parser → List Token → Tree → Parser → Prop
  | integer {parser : Parser} {value : Int64} {next : Token} {cursor : Cursor} : parser.current.kind = .integer →
      parser.current.literal = .integer value → parser.cursor.next = (.ok next, cursor) →
      Succeeds .factor parser [parser.current] (.literal value parser.current.span) (parser.consume next cursor)
  | group {parser inner here : Parser} {tokens : List Token} {tree : Tree} {next : Token} {cursor : Cursor} :
      parser.Opens inner → Succeeds .formula inner tokens tree here → here.current.kind = .closeParen →
      here.cursor.next = (.ok next, cursor) →
      Succeeds .factor parser (parser.current :: tokens ++ [here.current]) tree (here.consume next cursor).leave
  | first {power : Power} {parser after : Parser} {tokens : List Token} {tree : Tree} :
      Succeeds power.operand parser tokens tree after → Succeeds power.category parser tokens tree after
  | operation {power : Power} {parser here after : Parser} {tokens more : List Token} {left right : Tree} {next : Token}
      {cursor : Cursor} : Succeeds power.category parser tokens left here → here.current.kind.power? = some power →
      here.cursor.next = (.ok next, cursor) → Succeeds power.operand (here.consume next cursor) more right after →
      (left.combine here.current right).height ≤ maxHeight →
      Succeeds power.category parser (tokens ++ here.current :: more) (left.combine here.current right)
        { after with log := after.log.push (.folding here.current.kind power) }

/-- A rule has read some of its parts and fails in the next one. -/
inductive BreaksOff : Category → Parser → Error → Parser → Prop
  | integer {parser : Parser} {value : Int64} {error : Error} {cursor : Cursor} : parser.current.kind = .integer →
      parser.current.literal = .integer value → parser.cursor.next = (.error error, cursor) →
      BreaksOff .factor parser error { parser with cursor }
  | operand {parser : Parser} : parser.current.kind ≠ .integer → parser.current.kind ≠ .openParen →
      BreaksOff .factor parser (parser.unexpected "an operand") parser
  | full {parser : Parser} : parser.current.kind = .openParen → maxDepth ≤ parser.depth →
      BreaksOff .factor parser parser.tooDeep parser
  /-- The group has been entered when its parenthesis cannot be consumed. -/
  | opening {parser : Parser} {error : Error} {cursor : Cursor} : parser.current.kind = .openParen →
      parser.depth < maxDepth → parser.cursor.next = (.error error, cursor) →
      BreaksOff .factor parser error { parser.enter with cursor }
  | within {parser inner after : Parser} {error : Error} : parser.Opens inner → BreaksOff .formula inner error after →
      BreaksOff .factor parser error after
  | unclosed {parser inner here : Parser} {tokens : List Token} {tree : Tree} : parser.Opens inner →
      Succeeds .formula inner tokens tree here → Category.formula.Ends here.current.kind →
      here.current.kind ≠ .closeParen → BreaksOff .factor parser (here.unexpected "\x60RParen\x60") here
  | closing {parser inner here : Parser} {tokens : List Token} {tree : Tree} {error : Error} {cursor : Cursor} :
      parser.Opens inner → Succeeds .formula inner tokens tree here → here.current.kind = .closeParen →
      here.cursor.next = (.error error, cursor) → BreaksOff .factor parser error { here with cursor }
  | first {power : Power} {parser after : Parser} {error : Error} : BreaksOff power.operand parser error after →
      BreaksOff power.category parser error after
  | operator {power : Power} {parser here : Parser} {tokens : List Token} {left : Tree} {error : Error}
      {cursor : Cursor} : Succeeds power.category parser tokens left here → here.current.kind.power? = some power →
      here.cursor.next = (.error error, cursor) → BreaksOff power.category parser error { here with cursor }
  | further {power : Power} {parser here after : Parser} {tokens : List Token} {left : Tree} {next : Token}
      {cursor : Cursor} {error : Error} : Succeeds power.category parser tokens left here →
      here.current.kind.power? = some power → here.cursor.next = (.ok next, cursor) →
      BreaksOff power.operand (here.consume next cursor) error after → BreaksOff power.category parser error after
  /-- The operator has both its operands, and its operation is too high. -/
  | height {power : Power} {parser here after : Parser} {tokens more : List Token} {left right : Tree} {next : Token}
      {cursor : Cursor} : Succeeds power.category parser tokens left here → here.current.kind.power? = some power →
      here.cursor.next = (.ok next, cursor) → Succeeds power.operand (here.consume next cursor) more right after →
      power.operand.Ends after.current.kind → maxHeight < (left.combine here.current right).height →
      BreaksOff power.category parser ⟨.tooDeep maxHeight, here.current.span.start⟩
        { after with log := after.log.push (.folding here.current.kind power) }

theorem Succeeds.depth_eq {category : Category} {parser after : Parser} {tokens : List Token} {tree : Tree}
    (h : Succeeds category parser tokens tree after) : after.depth = parser.depth := by
  induction h with
  | integer => rfl
  | group opens _ _ _ ih =>
    cases opens
    exact Nat.sub_eq_of_eq_add ih
  | first _ ih => exact ih
  | operation _ _ _ _ _ ihl ihr => exact ihr.trans ihl

/-! ### Each rule does one or the other -/

/-- What comes of a rule. -/
inductive Settled (category : Category) (parser : Parser) : Except Error Tree × Parser → Prop
  | succeeds {tokens : List Token} {tree : Tree} {after : Parser} : Succeeds category parser tokens tree after →
      category.Ends after.current.kind → Settled category parser (.ok tree, after)
  | breaksOff {error : Error} {after : Parser} : BreaksOff category parser error after →
      Settled category parser (.error error, after)

/-- A computation does as the rule of a category where the depth is as given. -/
def Settles (category : Category) (depth : Nat) (action : ParseM Tree) : Prop :=
  ∀ parser : Parser, parser.depth = depth → parser.current.Coherent → Settled category parser (action parser)

section
variable {category : Category} {power : Power} {parser here : Parser} {tokens : List Token} {left : Tree}
  {operand group : ParseM Tree} {room depth : Nat}

theorem settled_chain (settles : Settles power.operand parser.depth operand)
    (h : Succeeds power.category parser tokens left here) (ends : power.operand.Ends here.current.kind) :
    Settled power.category parser (chain power operand left here) := by
  -- The measure is the height that is left for the tree, which every operator takes from.
  induction hm : maxHeight - left.height using Nat.strongRecOn generalizing tokens left here with
  | ind measure ih =>
    rw [run_chain]
    split
    · next hp =>
      rcases hn : here.cursor.next with ⟨error | next, cursor⟩
      · rw [eat_of_error rfl hn]
        exact .breaksOff (.operator h hp hn)
      · have depth : (here.consume next cursor).depth = parser.depth := h.depth_eq
        have settled := settles (here.consume next cursor) depth (Cursor.step_of_next hn).coherent
        rw [eat_of_next rfl hn]
        simp only
        rcases hop : operand (here.consume next cursor) with ⟨error | right, after⟩ <;> rw [hop] at settled
        · cases settled with
          | breaksOff hf => exact .breaksOff (.further h hp hn hf)
        · cases settled with
          | succeeds hr hends =>
            simp only
            by_cases low : (left.combine here.current right).height ≤ maxHeight
            · have lower := left.height_left_lt_combine here.current right
              rw [if_pos low]
              exact ih _ (by omega) (.operation h hp hn hr low) hends rfl
            · rw [if_neg low]
              exact .breaksOff (.height h hp hn hr hends (Nat.lt_of_not_le low))
    · next hp => exact .succeeds h (Power.ends_category ends hp)

theorem settles_chain (settles : Settles power.operand depth operand) :
    Settles power.category depth (operand >>= chain power operand) := by
  intro parser hd coherent
  have settled := settles parser hd coherent
  rw [run_bind]
  rcases hop : operand parser with ⟨error | tree, after⟩ <;> rw [hop] at settled
  · cases settled with
    | breaksOff h => exact .breaksOff (.first h)
  · cases settled with
    | succeeds h ends => exact settled_chain (hd ▸ settles) (.first h) ends

theorem settles_factorOf
    (hg : ∀ parser : Parser, parser.depth = depth → parser.current.kind = .openParen → parser.current.Coherent →
      Settled .factor parser (group parser)) : Settles .factor depth (factorOf group) := by
  intro parser hd coherent
  by_cases hk : parser.current.kind = .integer
  · obtain ⟨value, hl⟩ := coherent.mp hk
    rw [factorOf_of_integer hl]
    rcases hn : parser.cursor.next with ⟨error | next, cursor⟩
    · rw [eat_of_error hk hn]
      exact .breaksOff (.integer hk hl hn)
    · rw [eat_of_next hk hn]
      exact .succeeds (.integer hk hl hn) trivial
  · rw [factorOf_of_ne fun value hl => hk (coherent.mpr ⟨value, hl⟩)]
    by_cases ho : parser.current.kind = .openParen
    · rw [if_pos ho]
      exact hg parser hd ho coherent
    · rw [if_neg ho]
      exact .breaksOff (.operand hk ho)

theorem settles_rule
    (hg : ∀ parser : Parser, parser.depth = depth → parser.current.kind = .openParen → parser.current.Coherent →
      Settled .factor parser (groupWithin room parser)) (category : Category) :
    Settles category depth (category.rule room) := by
  have factor : Settles .factor depth (Category.rule room .factor) := settles_factorOf hg
  have chain (power : Power) (settles : Settles power.operand depth (power.operand.rule room)) :
      Settles power.category depth (power.category.rule room) := by
    rw [power.rule_category room]
    exact settles_chain settles
  cases category with
  | factor => exact factor
  | term => exact chain .multiplicative factor
  | formula => exact chain .additive (chain .multiplicative factor)

theorem settled_groupWithin (hr : room = maxDepth - parser.depth) (hk : parser.current.kind = .openParen) :
    Settled .factor parser (groupWithin room parser) := by
  -- Inside a group there is one group less to be opened.
  induction room generalizing parser with
  | zero => exact .breaksOff (.full hk (Nat.le_of_sub_eq_zero hr.symm))
  | succ room ih =>
    have lt : parser.depth < maxDepth := by omega
    have hk' : parser.enter.current.kind = .openParen := hk
    rw [groupWithin_of_lt room lt]
    rcases hn : parser.cursor.next with ⟨error | next, cursor⟩
    · rw [eat_of_error hk' hn]
      exact .breaksOff (.opening hk lt hn)
    · rw [eat_of_next hk' hn]
      have opens : parser.Opens (parser.enter.consume next cursor) := .intro hk lt hn
      have settles : Settles .formula (parser.depth + 1) (Category.rule room .formula) :=
        settles_rule (fun _ hd hk _ => ih (by omega) hk) .formula
      have settled := settles (parser.enter.consume next cursor) rfl (Cursor.step_of_next hn).coherent
      rw [Category.rule] at settled
      simp only
      rcases hf : formulaOf (groupWithin room) (parser.enter.consume next cursor) with ⟨error | tree, here⟩ <;>
        rw [hf] at settled
      · cases settled with
        | breaksOff h => exact .breaksOff (.within opens h)
      · cases settled with
        | succeeds h ends =>
          simp only
          by_cases hc : here.current.kind = .closeParen
          · rcases hn' : here.cursor.next with ⟨error | next', cursor'⟩
            · rw [eat_of_error hc hn']
              exact .breaksOff (.closing opens h hc hn')
            · rw [eat_of_next hc hn']
              exact .succeeds (.group opens h hc hn') trivial
          · rw [eat_of_ne hc]
            exact .breaksOff (.unclosed opens h ends hc)

/-- From every parser whose token comes from a text, each rule succeeds or breaks off. -/
theorem settled_rule (category : Category) (coherent : parser.current.Coherent) :
    Settled category parser (category.rule (maxDepth - parser.depth) parser) :=
  settles_rule (fun _ hd hk _ => settled_groupWithin (hd ▸ rfl) hk) category parser rfl coherent

end

end Polish
