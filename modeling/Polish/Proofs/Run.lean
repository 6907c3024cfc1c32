import Polish.Parser.Rules
import Polish.Proofs.Stream

/-! Runs of the parser: its single steps in a row, with the tokens that they consume. A run consumes the
    stream of the text in order, and the token that the parser holds is the next one of the stream. -/

namespace Polish

namespace Event

/-- The tokens that a log says were read. -/
def lexedIn (log : Array Event) : List Token :=
  log.toList.filterMap fun
    | .lexed token => some token
    | _ => none

theorem lexedIn_append (log more : Array Event) : lexedIn (log ++ more) = lexedIn log ++ lexedIn more := by
  rw [lexedIn, Array.toList_append, List.filterMap_append]
  rfl

theorem lexedIn_push {log : Array Event} {event : Event} (h : lexedIn #[event] = []) :
    lexedIn (log.push event) = lexedIn log := by
  rw [Array.push_eq_append, lexedIn_append, h, List.append_nil]

theorem lexedIn_ofRead (token : Token) : lexedIn (ofRead token) = [token].filter (·.kind ≠ .endOfText) := by
  unfold ofRead
  by_cases h : token.kind = .endOfText
  · rw [if_pos h, List.filter_cons_of_neg (by simpa using h)]
    rfl
  · rw [if_neg h, List.filter_cons_of_pos (by simpa using h)]
    rfl

/-- The tokens that a log says were consumed. -/
def ateIn (log : Array Event) : List Token :=
  log.toList.filterMap fun
    | .ate token => some token
    | _ => none

theorem ateIn_append (log more : Array Event) : ateIn (log ++ more) = ateIn log ++ ateIn more := by
  rw [ateIn, Array.toList_append, List.filterMap_append]
  rfl

theorem ateIn_push (log : Array Event) (event : Event) :
    ateIn (log.push event) = ateIn log ++ ateIn #[event] := by
  rw [Array.push_eq_append, ateIn_append]

theorem ateIn_ofRead (token : Token) : ateIn (ofRead token) = [] := by
  unfold ofRead
  split <;> rfl

end Event

namespace Parser

/-- The parser when it has consumed its token and read the next one. -/
def consume (parser : Parser) (next : Token) (cursor : Cursor) : Parser :=
  { parser with
    cursor
    current := next
    log := (parser.log ++ Event.ofRead next).push (.ate parser.current) }

theorem ateIn_consume (parser : Parser) (next : Token) (cursor : Cursor) :
    Event.ateIn (parser.consume next cursor).log = Event.ateIn parser.log ++ [parser.current] := by
  have ate : Event.ateIn #[.ate parser.current] = [parser.current] := rfl
  rw [consume, Event.ateIn_push, Event.ateIn_append, Event.ateIn_ofRead, ate, List.append_nil]

/-- The parser with one more group open. -/
def enter (parser : Parser) : Parser :=
  { parser with depth := parser.depth + 1 }

/-- The parser with one group less open. -/
def leave (parser : Parser) : Parser :=
  { parser with depth := parser.depth - 1 }

end Parser

namespace ParseM
variable {kind : Kind} {parser : Parser} {next : Token} {cursor : Cursor} {error : Error}

theorem eat_of_next (hk : parser.current.kind = kind) (hn : parser.cursor.next = (.ok next, cursor)) :
    eat kind parser = (.ok parser.current, parser.consume next cursor) := by
  simp only [eat, hk, ↓reduceIte, hn]
  rfl

theorem eat_of_error (hk : parser.current.kind = kind) (hn : parser.cursor.next = (.error error, cursor)) :
    eat kind parser = (.error error, { parser with cursor }) := by
  simp only [eat, hk, ↓reduceIte, hn]

theorem eat_of_ne (hk : parser.current.kind ≠ kind) :
    eat kind parser = (.error (parser.unexpected ("\x60" ++ kind.name ++ "\x60")), parser) := by
  simp only [eat, hk, ↓reduceIte, refuse]

theorem enterGroup_of_lt (h : parser.depth < maxDepth) : enterGroup parser = (.ok (), parser.enter) := by
  simp only [enterGroup, h, ↓reduceIte]
  rfl

theorem factorOf_of_integer {value : Int64} (hl : parser.current.literal = .integer value) (group : ParseM Tree) :
    factorOf group parser =
      match eat .integer parser with
      | (.ok token, after) => (.ok (.literal value token.span), after)
      | (.error error, after) => (.error error, after) := by
  simp only [factorOf, run_bind, current, hl]
  rcases eat .integer parser with ⟨_ | _, _⟩ <;> rfl

theorem factorOf_of_ne (hl : ∀ value, parser.current.literal ≠ .integer value) (group : ParseM Tree) :
    factorOf group parser =
      if parser.current.kind = .openParen then group parser else refuse "an operand" parser := by
  simp only [factorOf, run_bind, current]
  split <;> rfl

theorem groupWithin_of_lt (room : Nat) (h : parser.depth < maxDepth) :
    groupWithin (room + 1) parser =
      match eat .openParen parser.enter with
      | (.error error, after) => (.error error, after)
      | (.ok _, between) =>
        match formulaOf (groupWithin room) between with
        | (.error error, after) => (.error error, after)
        | (.ok tree, between) =>
          match eat .closeParen between with
          | (.error error, after) => (.error error, after)
          | (.ok _, after) => (.ok tree, after.leave) := by
  simp only [groupWithin, run_bind, enterGroup_of_lt h]
  rcases eat .openParen parser.enter with ⟨_ | _, between⟩
  · rfl
  · simp only
    rcases formulaOf (groupWithin room) between with ⟨_ | _, between⟩
    · rfl
    · simp only
      rcases eat .closeParen between with ⟨_ | _, after⟩ <;> rfl

end ParseM

namespace Parser

/-- Steps of the parser in a row, none of which fails. -/
inductive Run : Parser → List Token → Parser → Prop
  | refl {parser : Parser} : Run parser [] parser
  | eat {parser here : Parser} {tokens : List Token} {next : Token} {cursor : Cursor} : Run parser tokens here →
      here.cursor.next = (.ok next, cursor) → Run parser (tokens ++ [here.current]) (here.consume next cursor)
  | enter {parser here : Parser} {tokens : List Token} : Run parser tokens here → here.depth < maxDepth →
      Run parser tokens here.enter
  | leave {parser here : Parser} {tokens : List Token} : Run parser tokens here → Run parser tokens here.leave
  | fold {parser here : Parser} {tokens : List Token} (operator : Kind) (power : Power) : Run parser tokens here →
      Run parser tokens { here with log := here.log.push (.folding operator power) }

namespace Run
variable {parser between after : Parser} {tokens more : List Token}

theorem trans (h : Run parser tokens between) (h' : Run between more after) : Run parser (tokens ++ more) after := by
  induction h' with
  | refl => rwa [List.append_nil]
  | eat _ hn ih => rw [← List.append_assoc]; exact ih.eat hn
  | enter _ hd ih => exact ih.enter hd
  | leave _ ih => exact ih.leave
  | fold operator power _ ih => exact ih.fold operator power

/-- A run reads one token more than it consumes, the one that the parser then holds. -/
theorem reads {cursor : Cursor} (h : Run parser tokens after)
    (start : cursor.next = (.ok parser.current, parser.cursor)) :
    cursor.Reads (tokens ++ [after.current]) after.cursor := by
  induction h with
  | refl => exact .cons start .nil
  | eat _ hn ih => exact ih.concat hn
  | enter _ _ ih | leave _ ih | fold _ _ _ ih => exact ih

theorem lexed (h : Run parser tokens after) : ∃ later, parser.current :: later = tokens ++ [after.current] ∧
    Event.lexedIn after.log = Event.lexedIn parser.log ++ later.filter (·.kind ≠ .endOfText) := by
  induction h with
  | refl => exact ⟨[], rfl, (List.append_nil _).symm⟩
  | @eat here _ next cursor _ hn ih =>
    -- The token that is read is not the one that is consumed, but the one behind it.
    obtain ⟨later, h1, h2⟩ := ih
    refine ⟨later ++ [next], ?_, ?_⟩
    · rw [← List.cons_append, h1]
      rfl
    · rw [consume, Event.lexedIn_push rfl, Event.lexedIn_append, h2, Event.lexedIn_ofRead,
        List.filter_append, List.append_assoc]
  | enter _ _ ih | leave _ ih => exact ih
  | fold operator power _ ih =>
    rw [Event.lexedIn_push rfl]
    exact ih

theorem ate (h : Run parser tokens after) : Event.ateIn after.log = Event.ateIn parser.log ++ tokens := by
  induction h with
  | refl => exact (List.append_nil _).symm
  | @eat here _ next cursor _ _ ih => rw [here.ateIn_consume, ih, List.append_assoc]
  | enter _ _ ih | leave _ ih => exact ih
  | fold operator power _ ih =>
    rw [Event.ateIn_push, ih]
    exact List.append_nil _

end Run

end Parser

end Polish
