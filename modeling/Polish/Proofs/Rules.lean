import Polish.Proofs.Semantics
import Polish.Proofs.Viable

/-! What the rules of the parser do. A rule consumes tokens that derive the tree which it gives, or it stops
    with an error at the first token that cannot go on, that cannot be read or that is beyond a limit. -/

namespace Polish
open ParseM

/-! ### Groups -/

namespace Parser.Opens
variable {parser inner : Parser}

theorem depth_eq (h : parser.Opens inner) : inner.depth = parser.depth + 1 := by
  cases h
  rfl

theorem depth_le (h : parser.Opens inner) : inner.depth ≤ maxDepth := by
  cases h with
  | intro _ lt _ => exact lt

theorem depth_pos (h : parser.Opens inner) : 0 < inner.depth := by
  rw [h.depth_eq]
  exact Nat.succ_pos _

theorem run (h : parser.Opens inner) : parser.Run [parser.current] inner := by
  cases h with
  | intro _ lt hn =>
    have entered : parser.Run [] parser.enter := .enter .refl lt
    exact entered.eat hn

theorem steps (h : parser.Opens inner) :
    Progress.Steps ⟨parser.depth, .operand⟩ [parser.current] ⟨inner.depth, .operand⟩ := by
  cases h with
  | intro hk _ _ => exact .cons (.opening hk) .refl

end Parser.Opens

/-! ### Success -/

/-- The parser has read a tree. -/
structure Parsed (category : Category) (parser : Parser) (tokens : List Token) (tree : Tree) (after : Parser) :
    Prop where
  run : parser.Run tokens after
  derives : Derives category tokens tree.shape
  depth : after.depth = parser.depth
  shallow : Shallow (maxDepth - parser.depth) tokens
  formed : tree.Formed
  words : tree.words = ungrouped tokens
  low : tree.height ≤ maxHeight

namespace Parsed
variable {category : Category} {power : Power} {parser here after : Parser} {tokens more : List Token}
  {tree right : Tree} {next : Token} {cursor : Cursor}

theorem of_operand (h : Parsed power.operand parser tokens tree after) :
    Parsed power.category parser tokens tree after :=
  { h with derives := h.derives.of_operand }

theorem steps (h : Parsed category parser tokens tree after) :
    Progress.Steps ⟨parser.depth, .operand⟩ tokens ⟨parser.depth, .operator⟩ :=
  h.derives.steps parser.depth

theorem operation (h : Parsed power.category parser tokens tree here) (hp : here.current.kind.power? = some power)
    (hn : here.cursor.next = (.ok next, cursor))
    (hr : Parsed power.operand (here.consume next cursor) more right after)
    (low : (tree.combine here.current right).height ≤ maxHeight) :
    Parsed power.category parser (tokens ++ here.current :: more) (tree.combine here.current right)
      { after with log := after.log.push (.folding here.current.kind power) } := by
  have depth : (here.consume next cursor).depth = parser.depth := h.depth
  obtain ⟨-, -, h1, h2⟩ := Kind.of_isSome_power? (Option.isSome_of_eq_some hp)
  refine ⟨?_, h.derives.operation hp hr.derives, hr.depth.trans depth, ?_, .combine h.formed hr.formed, ?_, low⟩
  · have run := (h.run.eat hn).trans hr.run
    rw [List.append_assoc, List.singleton_append] at run
    exact run.fold _ _
  · rw [Shallow.append_iff h.derives.even, Shallow.cons_iff h1 h2]
    exact ⟨h.shallow, depth ▸ hr.shallow⟩
  · rw [ungrouped_append, ungrouped_cons_of_ne h1 h2, ← h.words, ← hr.words]
    rfl

theorem integer {value : Int64} (hk : parser.current.kind = .integer)
    (hl : parser.current.literal = .integer value) (hn : parser.cursor.next = (.ok next, cursor)) :
    Parsed .factor parser [parser.current] (.literal value parser.current.span) (parser.consume next cursor) := by
  have h1 : parser.current.kind ≠ .openParen := by rw [hk]; nofun
  have h2 : parser.current.kind ≠ .closeParen := by rw [hk]; nofun
  have word : (⟨.integer, .integer value, parser.current.span⟩ : Token) = parser.current := by rw [← hk, ← hl]
  refine ⟨Parser.Run.refl.eat hn, .integer hk hl, rfl, .singleton h1, .literal _ _, ?_, Nat.zero_le _⟩
  rw [ungrouped_cons_of_ne h1 h2, Tree.words, word]
  rfl

theorem group {inner : Parser} (opens : parser.Opens inner) (h : Parsed .formula inner tokens tree here)
    (hc : here.current.kind = .closeParen) (hn : here.cursor.next = (.ok next, cursor)) :
    Parsed .factor parser (parser.current :: tokens ++ [here.current]) tree (here.consume next cursor).leave := by
  have opened := opens.run
  obtain ⟨hk, lt, _⟩ := opens
  have even := h.derives.even
  refine ⟨((opened.trans h.run).eat hn).leave, .group hk h.derives hc, ?_, ?_, h.formed, ?_, h.low⟩
  · exact Nat.sub_eq_of_eq_add h.depth
  · exact (Shallow.group_iff hk hc even).mpr ⟨Nat.sub_pos_of_lt lt, h.shallow⟩
  · exact h.words.trans (ungrouped_group hk hc _).symm

end Parsed

/-- What a rule reads derives the tree that it makes. -/
theorem Succeeds.parsed {category : Category} {parser after : Parser} {tokens : List Token} {tree : Tree}
    (h : Succeeds category parser tokens tree after) : Parsed category parser tokens tree after := by
  induction h with
  | integer hk hl hn => exact .integer hk hl hn
  | group opens _ hc hn ih => exact .group opens ih hc hn
  | first _ ih => exact ih.of_operand
  | operation _ hp hn _ low ihl ihr => exact ihl.operation hp hn ihr low

/-! ### Failure -/

/-- Why a rule stops at `here`, where `tokens` are consumed and the progress is as it is given. -/
inductive Cause (progress : Progress) (tokens : List Token) (here : Parser) : Error → Parser → Prop
  /-- The token that stands here fits, but the one behind it cannot be read. -/
  | misread {error : Error} {cursor : Cursor} {next : Progress} : progress.Step here.current next →
      here.cursor.next = (.error error, cursor) → Cause progress tokens here error { here with cursor }
  | operand : progress.due = .operand → here.current.kind ≠ .integer → here.current.kind ≠ .openParen →
      Cause progress tokens here (here.unexpected "an operand") here
  | closing : progress.due = .operator → 0 < progress.groups → here.current.kind ≠ .closeParen →
      here.current.kind.power? = none → Cause progress tokens here (here.unexpected "\x60RParen\x60") here
  | depth : progress.due = .operand → here.current.kind = .openParen → maxDepth ≤ progress.groups →
      Cause progress tokens here here.tooDeep here
  /-- The operator has both its operands, and its operation is too high. -/
  | height {front lefts rights : List Token} {operator : Token} {power : Power} {left right : Shape} :
      tokens = front ++ (lefts ++ operator :: rights) → Derives power.category lefts left →
      operator.kind.power? = some power → Derives power.operand rights right → left.levels ≤ maxHeight →
      right.levels ≤ maxHeight → maxHeight < (Shape.operation left operator.kind right).levels →
      Cause progress tokens here ⟨.tooDeep maxHeight, operator.span.start⟩ here

/-- Tokens that fit were consumed, and then there was a cause for the error. -/
def Failed (parser : Parser) (error : Error) (after : Parser) : Prop :=
  ∃ tokens progress here, parser.Run tokens here ∧ Progress.Steps ⟨parser.depth, .operand⟩ tokens progress ∧
    Cause progress tokens here error after

theorem Cause.prepend {progress : Progress} {tokens : List Token} {here after : Parser} {error : Error}
    (h : Cause progress tokens here error after) (front : List Token) :
    Cause progress (front ++ tokens) here error after := by
  cases h with
  | misread hs hn => exact .misread hs hn
  | operand h1 h2 h3 => exact .operand h1 h2 h3
  | closing h1 h2 h3 h4 => exact .closing h1 h2 h3 h4
  | depth h1 h2 h3 => exact .depth h1 h2 h3
  | height heq h1 h2 h3 h4 h5 h6 =>
    rw [heq, ← List.append_assoc]
    exact .height rfl h1 h2 h3 h4 h5 h6

theorem Failed.prepend {parser between after : Parser} {error : Error} {front : List Token}
    (h : Failed between error after) (run : parser.Run front between)
    (steps : Progress.Steps ⟨parser.depth, .operand⟩ front ⟨between.depth, .operand⟩) : Failed parser error after := by
  obtain ⟨tokens, progress, here, h1, h2, h3⟩ := h
  exact ⟨front ++ tokens, progress, here, run.trans h1, steps.append h2, h3.prepend front⟩

theorem Failed.of_high {power : Power} {parser here after : Parser} {tokens more : List Token} {left right : Tree}
    {next : Token} {cursor : Cursor} (h : Parsed power.category parser tokens left here)
    (hp : here.current.kind.power? = some power) (hn : here.cursor.next = (.ok next, cursor))
    (hr : Parsed power.operand (here.consume next cursor) more right after)
    (high : maxHeight < (left.combine here.current right).height) :
    Failed parser ⟨.tooDeep maxHeight, here.current.span.start⟩
      { after with log := after.log.push (.folding here.current.kind power) } := by
  have depth : (here.consume next cursor).depth = parser.depth := h.depth
  have step : Progress.Step ⟨parser.depth, .operator⟩ here.current ⟨parser.depth, .operand⟩ :=
    .operator (Option.isSome_of_eq_some hp)
  have run := ((h.run.eat hn).trans hr.run).fold here.current.kind power
  have steps := h.steps.append (.cons step (depth ▸ hr.steps))
  rw [List.append_assoc, List.singleton_append] at run
  rw [Tree.height_combine, h.formed.height_eq, hr.formed.height_eq] at high
  refine ⟨_, _, _, run, steps, .height (List.nil_append _).symm h.derives hp hr.derives ?_ ?_ high⟩
  · exact h.formed.height_eq ▸ h.low
  · exact hr.formed.height_eq ▸ hr.low

/-- The parts that a rule has read make up the progress with which it stops. -/
theorem BreaksOff.failed {category : Category} {parser after : Parser} {error : Error}
    (h : BreaksOff category parser error after) : Failed parser error after := by
  induction h with
  | @integer parser _ _ _ hk hl hn => exact ⟨[], _, parser, .refl, .refl, .misread (.integer hk hl) hn⟩
  | @operand parser hk ho => exact ⟨[], _, parser, .refl, .refl, .operand rfl hk ho⟩
  | @full parser hk deep => exact ⟨[], _, parser, .refl, .refl, .depth rfl hk deep⟩
  | @opening parser _ _ hk lt hn =>
    -- The group has been entered, but no parenthesis was consumed, so there is no progress yet.
    exact ⟨[], _, parser.enter, .enter .refl lt, .refl, .misread (.opening hk) hn⟩
  | within opens _ ih => exact ih.prepend opens.run opens.steps
  | unclosed opens h ends hc =>
    have steps := opens.steps.append h.parsed.steps
    exact ⟨_, _, _, opens.run.trans h.parsed.run, steps, .closing rfl opens.depth_pos hc ends⟩
  | closing opens h hc hn =>
    have steps := opens.steps.append h.parsed.steps
    rw [opens.depth_eq] at steps
    exact ⟨_, _, _, opens.run.trans h.parsed.run, steps, .misread (.closing hc) hn⟩
  | first _ ih => exact ih
  | operator h hp hn =>
    exact ⟨_, _, _, h.parsed.run, h.parsed.steps, .misread (.operator (Option.isSome_of_eq_some hp)) hn⟩
  | further h hp hn _ ih =>
    have steps := h.parsed.steps.concat (.operator (Option.isSome_of_eq_some hp))
    exact ih.prepend (h.parsed.run.eat hn) (h.depth_eq.symm ▸ steps)
  | height h hp hn hr _ high => exact .of_high h.parsed hp hn hr.parsed high

/-! ### Each rule succeeds or fails -/

/-- What a rule comes to: a tree that cannot go on with the token behind it, or an error that has a cause. -/
inductive Verdict (category : Category) (parser : Parser) : Except Error Tree × Parser → Prop
  | parsed {tokens : List Token} {tree : Tree} {after : Parser} : Parsed category parser tokens tree after →
      category.Ends after.current.kind → Verdict category parser (.ok tree, after)
  | failed {error : Error} {after : Parser} : Failed parser error after → Verdict category parser (.error error, after)

theorem Verdict.split {category : Category} {parser : Parser} {result : Except Error Tree × Parser}
    (h : Verdict category parser result) :
    (∃ tokens tree after, result = (.ok tree, after) ∧ Parsed category parser tokens tree after ∧
      category.Ends after.current.kind) ∨
    ∃ error after, result = (.error error, after) ∧ Failed parser error after := by
  cases h with
  | parsed h ends => exact Or.inl ⟨_, _, _, rfl, h, ends⟩
  | failed h => exact Or.inr ⟨_, _, rfl, h⟩

/-- A computation keeps to a category where the depth is as given. -/
def Keeps (category : Category) (depth : Nat) (action : ParseM Tree) : Prop :=
  ∀ parser : Parser, parser.depth = depth → parser.current.Coherent → Verdict category parser (action parser)

theorem keeps_rule (category : Category) (depth : Nat) : Keeps category depth (category.rule (maxDepth - depth)) := by
  rintro parser rfl coherent
  have settled := settled_rule category coherent
  generalize category.rule (maxDepth - parser.depth) parser = result at settled
  cases settled with
  | succeeds h ends => exact .parsed h.parsed ends
  | breaksOff h => exact .failed h.failed

/-- The rules behave as they should from every parser whose token comes from a text. -/
theorem verdict_rule {parser : Parser} (category : Category) (coherent : parser.current.Coherent) :
    Verdict category parser (category.rule (maxDepth - parser.depth) parser) :=
  keeps_rule category parser.depth parser rfl coherent

end Polish
