import Polish.Proofs.Composition

/-! Calls of a parser from outside, in any order and after any errors. No call tells two parsers apart that hold
    the same token, have as many groups open and differ in white space that one of them has skipped already. A
    call that fails to consume a token or to open a group leaves no other difference than this, so nothing shows
    later that it was made. -/

namespace Polish
open ParseM

/-! ### Calls -/

/-- What a parser can be asked for. -/
inductive Call
  | eat (kind : Kind)
  | enterGroup
  | leaveGroup
  | formula
  | term
  | factor
  | current
  | position
  | unexpected (expected : String)

/-- What a call gives if it succeeds. An error that was only put together is no failure. -/
inductive Reply
  | done
  | token (token : Token)
  | tree (tree : Tree)
  | position (position : Position)
  | unexpected (error : Error)
  deriving DecidableEq

/-- Makes a call. To ask for the token, the position or an error changes nothing. -/
def Call.run : Call → ParseM Reply
  | .eat kind => return .token (← ParseM.eat kind)
  | .enterGroup => do
    ParseM.enterGroup
    return .done
  | .leaveGroup => do
    ParseM.leaveGroup
    return .done
  | .formula => return .tree (← ParseM.formula)
  | .term => return .tree (← ParseM.term)
  | .factor => return .tree (← ParseM.factor)
  | .current => return .token (← ParseM.current)
  | .position => fun parser => (.ok (.position parser.position), parser)
  | .unexpected expected => fun parser => (.ok (.unexpected (parser.unexpected expected)), parser)

/-- The answers to calls that are made one after another, whatever each of them comes to. -/
def replies : List Call → Parser → List (Except Error Reply)
  | [], _ => []
  | call :: calls, parser => (call.run parser).1 :: replies calls (call.run parser).2

/-- The parser when the calls are made. -/
def Parser.after (parser : Parser) (calls : List Call) : Parser :=
  calls.foldl (fun parser call => (call.run parser).2) parser

/-- What holds of the steps, of the opening of groups and of whole rules holds of every call. -/
theorem Composed.call {P : {α : Type} → ParseM α → Prop} (composed : Composed P) (enter : P ParseM.enterGroup)
    (rule : ∀ category : Category, P fun parser => category.rule (maxDepth - parser.depth) parser)
    (eat : P (ParseM.eat .endOfText)) (position : P Call.position.run)
    (unexpected : ∀ expected, P (Call.unexpected expected).run) (call : Call) : P call.run := by
  cases call with
  | eat kind =>
    refine composed.bind ?_ fun token => composed.pure _
    by_cases hk : kind = .endOfText
    · exact hk ▸ eat
    · exact composed.eat kind hk
  | enterGroup => exact composed.bind enter fun _ => composed.pure _
  | leaveGroup => exact composed.bind composed.leaveGroup fun _ => composed.pure _
  | formula => exact composed.bind (rule .formula) fun _ => composed.pure _
  | term => exact composed.bind (rule .term) fun _ => composed.pure _
  | factor => exact composed.bind (rule .factor) fun _ => composed.pure _
  | current => exact composed.bind composed.current fun _ => composed.pure _
  | position => exact position
  | unexpected expected => exact unexpected expected

/-! ### Parsers that are alike -/

/-- The parsers differ in nothing that a call depends on. -/
structure Parser.Alike (parser other : Parser) : Prop where
  cursor : parser.cursor.skipBlanks = other.cursor.skipBlanks
  current : parser.current = other.current
  depth : parser.depth = other.depth

namespace Parser.Alike
variable {parser other : Parser}

theorem refl (parser : Parser) : parser.Alike parser :=
  ⟨rfl, rfl, rfl⟩

theorem skipBlanks (parser : Parser) : { parser with cursor := parser.cursor.skipBlanks }.Alike parser :=
  ⟨parser.cursor.skipBlanks_skipBlanks, rfl, rfl⟩

theorem position_eq (alike : parser.Alike other) : parser.position = other.position := by
  rw [position, alike.current, ← position]

theorem unexpected_eq (alike : parser.Alike other) (expected : String) :
    parser.unexpected expected = other.unexpected expected := by
  rw [unexpected, alike.current, alike.position_eq, ← unexpected]

theorem tooDeep_eq (alike : parser.Alike other) : parser.tooDeep = other.tooDeep := by
  rw [tooDeep, alike.position_eq, ← tooDeep]

end Parser.Alike

/-- The computation does the same to parsers that are alike. -/
def ParseM.Blind {α : Type} (action : ParseM α) : Prop :=
  ∀ parser other : Parser, parser.Alike other →
    (action parser).1 = (action other).1 ∧ (action parser).2.Alike (action other).2

theorem blind_eat (kind : Kind) : Blind (eat kind) := by
  intro parser other alike
  have next : parser.cursor.next = other.cursor.next := Cursor.next_eq_of_skipBlanks_eq alike.cursor
  by_cases hk : parser.current.kind = kind
  · have hk' : other.current.kind = kind := alike.current ▸ hk
    rcases hn : other.cursor.next with ⟨error | token, after⟩
    · rw [eat_of_error hk (next.trans hn), eat_of_error hk' hn]
      exact ⟨rfl, rfl, alike.current, alike.depth⟩
    · rw [eat_of_next hk (next.trans hn), eat_of_next hk' hn]
      exact ⟨congrArg Except.ok alike.current, rfl, rfl, alike.depth⟩
  · have hk' : other.current.kind ≠ kind := alike.current ▸ hk
    rw [eat_of_ne hk, eat_of_ne hk', alike.unexpected_eq]
    exact ⟨rfl, alike⟩

theorem blind_enterGroup : Blind enterGroup := by
  intro parser other alike
  simp only [enterGroup, refuseDepth, alike.depth, alike.tooDeep_eq]
  split
  · exact ⟨rfl, alike.cursor, alike.current, rfl⟩
  · exact ⟨rfl, alike⟩

theorem composed_blind : Composed Blind where
  pure value _ _ alike := ⟨rfl, alike⟩
  bind := by
    intro _ _ first second h h' parser other alike
    obtain ⟨same, alike⟩ := h parser other alike
    rw [run_bind, run_bind]
    rcases hp : first parser with ⟨result, after⟩
    rcases ho : first other with ⟨result', after'⟩
    rw [hp, ho] at same alike
    obtain rfl : result = result' := same
    cases result with
    | error error => exact ⟨rfl, alike⟩
    | ok value => exact h' value after after' alike
  current _ _ alike := ⟨congrArg Except.ok alike.current, alike⟩
  fold _ _ _ _ alike := ⟨rfl, alike.cursor, alike.current, alike.depth⟩
  eat kind _ := blind_eat kind
  refuse expected _ _ alike := ⟨congrArg Except.error (alike.unexpected_eq expected), alike⟩
  tooHigh _ _ _ alike := ⟨rfl, alike⟩
  leaveGroup _ _ alike := ⟨rfl, alike.cursor, alike.current, congrArg (· - 1) alike.depth⟩

theorem blind_rule (category : Category) : Blind fun parser => category.rule (maxDepth - parser.depth) parser := by
  intro parser other alike
  have blind := composed_blind.rule blind_enterGroup
    (fun parser other alike => ⟨congrArg Except.error alike.tooDeep_eq, alike⟩) (maxDepth - other.depth) category
  simp only [alike.depth]
  exact blind parser other alike

theorem blind_call (call : Call) : Blind call.run := by
  refine composed_blind.call blind_enterGroup blind_rule (blind_eat .endOfText) (fun _ _ alike => ?_)
    (fun expected _ _ alike => ?_) call
  · simp only [Call.run, alike.position_eq]
    exact ⟨trivial, alike⟩
  · simp only [Call.run, alike.unexpected_eq expected]
    exact ⟨trivial, alike⟩

theorem replies_eq_of_alike {parser other : Parser} (alike : parser.Alike other) (calls : List Call) :
    replies calls parser = replies calls other := by
  induction calls generalizing parser other with
  | nil => rfl
  | cons call calls ih =>
    obtain ⟨same, alike⟩ := blind_call call parser other alike
    rw [replies, replies, same, ih alike]

/-! ### Failed calls -/

section
variable {kind : Kind} {parser after : Parser} {error : Error}

theorem alike_of_eat_error (h : eat kind parser = (.error error, after)) : after.Alike parser := by
  by_cases hk : parser.current.kind = kind
  · rcases hn : parser.cursor.next with ⟨error' | token, cursor⟩
    · rw [eat_of_error hk hn] at h
      cases h
      -- The token that could not be read is looked for behind the white space, and the cursor stays there.
      obtain ⟨-, rfl, -⟩ := Cursor.of_next_eq_error hn
      exact .skipBlanks parser
    · rw [eat_of_next hk hn] at h
      cases h
  · rw [eat_of_ne hk] at h
    cases h
    exact .refl parser

theorem run_of_return_eq_error {α β : Type} {first : ParseM α} {f : α → β}
    (h : (do return f (← first) : ParseM β) parser = (.error error, after)) : first parser = (.error error, after) := by
  rw [run_bind] at h
  rcases hf : first parser with ⟨error' | value, here⟩
  · rw [hf] at h
    cases h
    rfl
  · rw [hf] at h
    cases h

theorem alike_of_enterGroup_error (h : enterGroup parser = (.error error, after)) : after.Alike parser := by
  unfold enterGroup at h
  split at h
  · cases h
  · cases h
    exact .refl parser

end

/-- A call that fails to consume a token or to open a group is as if it had not been made: all further calls
    get the answers that they would have got before it, and the call itself fails again with the same error. -/
theorem failed_call_is_unseen (parser after : Parser) (call : Call) (error : Error)
    (single : call = .enterGroup ∨ ∃ kind, call = .eat kind) (h : call.run parser = (.error error, after)) :
    (∀ calls, replies calls after = replies calls parser) ∧ (call.run after).1 = .error error := by
  have alike : after.Alike parser := by
    rcases single with rfl | ⟨kind, rfl⟩
    · exact alike_of_enterGroup_error (run_of_return_eq_error h)
    · exact alike_of_eat_error (run_of_return_eq_error h)
  refine ⟨replies_eq_of_alike alike, ?_⟩
  rw [(blind_call call after parser alike).1, h]

/-- The token behind the first one cannot be read, and the cursor is left beyond the white space before it. -/
theorem failed_call_is_unseen_beyond_blanks : ∃ parser after, Parser.ofText? ['1', ' ', ' ', '&'] "s" = .ok parser ∧
    (Call.eat .integer).run parser = (.error ⟨.unknownCharacter '&', ⟨3, "s"⟩⟩, after) ∧
    parser.cursor.offset = 1 ∧ after.cursor.offset = 3 ∧ ∀ calls, replies calls after = replies calls parser :=
  ⟨_, _, rfl, rfl, rfl, rfl, (failed_call_is_unseen _ _ (.eat .integer) _ (Or.inr ⟨_, rfl⟩) rfl).1⟩

end Polish
