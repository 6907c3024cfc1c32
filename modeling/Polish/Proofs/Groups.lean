import Mathlib
import Polish.Proofs.Place
import Polish.Proofs.Spans

/-! The groups that a parser has open. A group is entered before its parenthesis is consumed, and it is not left
    when something in it fails. So after a failure as many groups more are open as parentheses were opened and not
    closed, and one more still if the failure came between entering a group and consuming its parenthesis. -/

namespace Polish
open ParseM Event

/-- The category's rule, for as many groups as the parser may still open. -/
def Category.read : Category → ParseM Tree
  | .formula => ParseM.formula
  | .term => ParseM.term
  | .factor => ParseM.factor

theorem Category.read_eq (category : Category) (parser : Parser) :
    category.read parser = category.rule (maxDepth - parser.depth) parser := by
  cases category <;> rfl

/-! ### What is open after a failure -/

/-- The parser has come to `here`, and has entered and left those groups whose parentheses it consumed. -/
structure Parser.Accounts (parser : Parser) (eaten : List Token) (here : Parser) : Prop where
  run : parser.Run eaten here
  depth : here.depth + closes eaten = parser.depth + opens eaten

/-- The single step that fails in the end. -/
inductive Parser.Halts (here : Parser) : Error → Parser → Prop
  | misread {error : Error} {cursor : Cursor} : here.current.kind ≠ .openParen →
      here.cursor.next = (.error error, cursor) → Halts here error { here with cursor }
  | refused {error : Error} : ¬error.fault.Lexical → Halts here error here
  | opening {error : Error} {cursor : Cursor} : here.current.kind = .openParen → here.depth < maxDepth →
      here.cursor.next = (.error error, cursor) → Halts here error { here.enter with cursor }

/-- The call ends with a lexical error while it consumes the parenthesis of a group that it has just entered. -/
def Parser.FailsToOpen (parser : Parser) (eaten : List Token) (error : Error) (after : Parser) : Prop :=
  ∃ here, parser.Run eaten here ∧ here.current.kind = .openParen ∧ enterGroup here = (.ok (), here.enter) ∧
    error.fault.Lexical ∧ eat .openParen here.enter = (.error error, after)

section
variable {category : Category} {power : Power} {parser inner here after : Parser} {tokens eaten more : List Token}
  {tree : Tree} {next : Token} {cursor : Cursor} {error : Error}

namespace Parser.Accounts

theorem refl (parser : Parser) : parser.Accounts [] parser :=
  ⟨.refl, rfl⟩

theorem trans (h : parser.Accounts eaten inner) (h' : inner.Accounts more after) :
    parser.Accounts (eaten ++ more) after := by
  refine ⟨h.run.trans h'.run, ?_⟩
  have outer := h.depth
  have within := h'.depth
  rw [opens_append, closes_append]
  omega

theorem of_succeeds (h : Succeeds category parser tokens tree here) : parser.Accounts tokens here :=
  ⟨h.parsed.run, by rw [h.depth_eq, h.parsed.derives.even]⟩

theorem of_opens (h : parser.Opens inner) : parser.Accounts [parser.current] inner := by
  refine ⟨h.run, ?_⟩
  cases h with
  | intro hk _ _ => simp [hk, consume, enter]

theorem operator (h : parser.Accounts tokens here) (hp : here.current.kind.power? = some power)
    (hn : here.cursor.next = (.ok next, cursor)) :
    parser.Accounts (tokens ++ [here.current]) (here.consume next cursor) := by
  obtain ⟨-, -, ho, hc⟩ := Kind.of_isSome_power? (Option.isSome_of_eq_some hp)
  have depth := h.depth
  refine ⟨h.run.eat hn, ?_⟩
  simpa [ho, hc, consume] using depth

end Parser.Accounts

/-- Whatever a rule fails in, all steps before it account for the groups. -/
theorem BreaksOff.accounts (h : BreaksOff category parser error after) :
    ∃ eaten here, parser.Accounts eaten here ∧ here.Halts error after := by
  induction h with
  | @integer parser _ _ _ hk _ hn =>
    have other : parser.current.kind ≠ .openParen := by rw [hk]; nofun
    exact ⟨[], parser, .refl parser, .misread other hn⟩
  | @operand parser _ _ | @full parser _ _ => exact ⟨[], parser, .refl parser, .refused id⟩
  | @opening parser _ _ hk lt hn => exact ⟨[], parser, .refl parser, .opening hk lt hn⟩
  | within opens _ ih =>
    obtain ⟨eaten, here, accounts, halts⟩ := ih
    exact ⟨_, here, (Parser.Accounts.of_opens opens).trans accounts, halts⟩
  | unclosed opens h _ _ => exact ⟨_, _, (Parser.Accounts.of_opens opens).trans (.of_succeeds h), .refused id⟩
  | @closing _ _ here _ _ _ _ opens h hc hn =>
    have other : here.current.kind ≠ .openParen := by rw [hc]; nofun
    exact ⟨_, here, (Parser.Accounts.of_opens opens).trans (.of_succeeds h), .misread other hn⟩
  | first _ ih => exact ih
  | operator h hp hn =>
    obtain ⟨-, -, other, -⟩ := Kind.of_isSome_power? (Option.isSome_of_eq_some hp)
    exact ⟨_, _, .of_succeeds h, .misread other hn⟩
  | further h hp hn _ ih =>
    obtain ⟨eaten, here, accounts, halts⟩ := ih
    exact ⟨_, here, ((Parser.Accounts.of_succeeds h).operator hp hn).trans accounts, halts⟩
  | height h hp hn hr _ _ =>
    have accounts := ((Parser.Accounts.of_succeeds h).operator hp hn).trans (.of_succeeds hr)
    exact ⟨_, _, ⟨accounts.run.fold _ _, accounts.depth⟩, .refused id⟩

namespace Parser.FailsToOpen

theorem lexical (h : parser.FailsToOpen eaten error after) : error.fault.Lexical := by
  obtain ⟨_, -, -, -, lexical, -⟩ := h
  exact lexical

/-- The parenthesis stays the token that the parser holds. -/
theorem kind_eq (h : parser.FailsToOpen eaten error after) : after.current.kind = .openParen := by
  obtain ⟨here, -, hk, -, -, failed⟩ := h
  rw [(alike_of_eat_error failed).current]
  exact hk

end Parser.FailsToOpen

namespace Parser.Halts

theorem ate (h : here.Halts error after) : ateIn after.log = ateIn here.log := by
  cases h <;> rfl

theorem depth (h : here.Halts error after) (run : parser.Run eaten here) :
    parser.FailsToOpen eaten error after ∧ after.depth = here.depth + 1 ∨
      ¬parser.FailsToOpen eaten error after ∧ after.depth = here.depth := by
  cases h with
  | misread other _ => exact .inr ⟨fun failed => other failed.kind_eq, rfl⟩
  | refused other => exact .inr ⟨fun failed => other failed.lexical, rfl⟩
  | opening hk lt hn =>
    have lexical := (Cursor.of_next_eq_error hn).2.2
    exact .inl ⟨⟨here, run, hk, enterGroup_of_lt lt, lexical, eat_of_error hk hn⟩, rfl⟩

end Parser.Halts

end

/-! ### Groups of a call -/

/-- Every parenthesis among the tokens closes one that was opened before it, and none stays open. -/
def Balanced (tokens : List Token) : Prop :=
  opens tokens = closes tokens ∧ ∀ front, front <+: tokens → closes front ≤ opens front

theorem Derives.balanced {category : Category} {tokens : List Token} {shape : Shape}
    (h : Derives category tokens shape) : Balanced tokens := by
  refine ⟨h.even, ?_⟩
  rintro front ⟨back, rfl⟩
  obtain ⟨between, steps, -⟩ := (h.steps 0).split
  have eq : opens front + 0 = closes front + between.groups := steps.opens_eq
  omega

/-- The parser has been made from the text and asked for anything, with any results. -/
def Parser.Reached (parser : Parser) (text : List Char) (label : String) : Prop :=
  ∃ start calls, ofText? text label = .ok start ∧ parser = start.after calls

theorem Parser.Reached.follows {parser : Parser} {text : List Char} {label : String}
    (h : parser.Reached text label) : parser.Follows text label := by
  obtain ⟨start, calls, started, rfl⟩ := h
  exact (onward_after calls (.ofText started)).1

theorem Parser.Follows.coherent {parser : Parser} {text : List Char} {label : String}
    (h : parser.Follows text label) : parser.current.Coherent := by
  obtain ⟨cursor, reads, -⟩ := h.reads
  obtain ⟨_, _, last⟩ := reads.split
  cases last with
  | cons hn _ => exact (Cursor.step_of_next hn).coherent

theorem onward_read {text : List Char} {label : String} (category : Category) : Onward text label category.read := by
  intro parser
  rw [category.read_eq]
  exact (composed_onward text label).rule onward_enterGroup (onward_of_same fun _ => rfl) _ category parser

/-- A rule that succeeds leaves as many groups open as there were, and what it consumed is balanced. After one that
    fails the groups are those of the parentheses that it consumed, and one more exactly if it could not read what
    stands behind the parenthesis of a group that it had just entered. -/
theorem groups_are_accounted_for (text : List Char) (label : String) (parser : Parser) (category : Category)
    (h : parser.Reached text label) :
    parser.depth ≤ maxDepth ∧
    (∀ tree after, category.read parser = (.ok tree, after) →
      ∃ eaten, ateIn after.log = ateIn parser.log ++ eaten ∧ after.depth = parser.depth ∧ Balanced eaten) ∧
    ∀ error after, category.read parser = (.error error, after) →
      ∃ eaten, ateIn after.log = ateIn parser.log ++ eaten ∧ after.depth ≤ maxDepth ∧
        (parser.FailsToOpen eaten error after ∧ after.depth + closes eaten = parser.depth + opens eaten + 1 ∨
          ¬parser.FailsToOpen eaten error after ∧ after.depth + closes eaten = parser.depth + opens eaten) := by
  have follows := h.follows
  have coherent := follows.coherent
  have settled := settled_rule category coherent
  rw [← category.read_eq] at settled
  refine ⟨follows.depth, fun tree after succeeded => ?_, fun error after failed => ?_⟩
  · rw [succeeded] at settled
    cases settled with
    | @succeeds tokens _ _ read _ =>
      exact ⟨tokens, read.parsed.run.ate, read.depth_eq, read.parsed.derives.balanced⟩
  · obtain ⟨onward, -⟩ := onward_read category parser follows
    rw [failed] at settled onward
    cases settled with
    | breaksOff broken =>
      -- The account is right up to the failing step, and only the opening of a group changes it in that step.
      obtain ⟨eaten, here, accounts, halts⟩ := broken.accounts
      refine ⟨eaten, halts.ate.trans accounts.run.ate, onward.depth, ?_⟩
      have depth := accounts.depth
      exact (halts.depth accounts.run).imp (fun opening => ⟨opening.1, by omega⟩) fun other => ⟨other.1, by omega⟩

/-- A formula has failed behind the second parenthesis, which the parser still holds. The next one fails there too, and
    enters one group more. -/
theorem groups_are_accounted_for_behind_failure : ∃ parser after error,
    parser.Reached ['(', '(', '&'] "s" ∧ parser.depth = 2 ∧ Category.read .formula parser = (.error error, after) ∧
      after.depth = 3 ∧ parser.FailsToOpen [] error after := by
  obtain ⟨start, started⟩ : ∃ start, Parser.ofText? ['(', '(', '&'] "s" = .ok start := ⟨_, rfl⟩
  have reached : (start.after [.formula]).Reached ['(', '(', '&'] "s" := ⟨start, [.formula], started, rfl⟩
  cases started
  refine ⟨_, _, ⟨.unknownCharacter '&', ⟨2, "s"⟩⟩, reached, by cbv, rfl, by cbv, ?_⟩
  obtain ⟨-, -, failure⟩ := groups_are_accounted_for _ _ _ .formula reached
  obtain ⟨eaten, ate, -, account⟩ := failure _ _ rfl
  obtain rfl : eaten = [] := List.self_eq_append_right.mp ate
  rcases account with ⟨opening, -⟩ | ⟨-, depth⟩
  · exact opening
  · cases depth

end Polish
