import Polish.Cursor
import Polish.Event

/-! The parser's state and its single steps. A parser holds one token that has been read and not
    consumed; consuming it reads the next one. A step that fails keeps what was read before, so the
    parser can be used on. -/

namespace Polish

/-- The most parentheses that may be open at once. -/
def maxDepth : Nat := 64

/-- The most levels of operators in a tree. -/
def maxHeight : Nat := 256

/-- `depth` counts the groups that have been entered and not left. -/
structure Parser where
  cursor : Cursor
  current : Token
  depth : Nat
  log : Array Event

/-- A computation of the parser; after an error the parser is in the state in which it arose. -/
abbrev ParseM := ExceptT Error (StateM Parser)

/-- What reading a token adds to the log. -/
def Event.ofRead (token : Token) : Array Event :=
  if token.kind = .endOfText then #[] else #[.lexed token]

namespace Parser

/-- Reads the first token. -/
def ofText? (text : List Char) (label : String) : Except Error Parser :=
  match (Cursor.ofText text label).next with
  | (.ok token, after) => .ok ⟨after, token, 0, Event.ofRead token⟩
  | (.error error, _) => .error error

/-- The place where the current token starts. -/
def position (parser : Parser) : Position :=
  parser.current.span.start

/-- The error that the current token is not what may come next. -/
def unexpected (parser : Parser) (expected : String) : Error :=
  ⟨.unexpected expected parser.current.describe, parser.position⟩

/-- The error that one more group would be too many. -/
def tooDeep (parser : Parser) : Error :=
  ⟨.tooDeep maxDepth, parser.position⟩

end Parser

namespace ParseM

/-- The token that is to be consumed next. -/
def current : ParseM Token := fun parser =>
  (.ok parser.current, parser)

/-- Adds an event to the log. -/
def record (event : Event) : ParseM Unit := fun parser =>
  (.ok (), { parser with log := parser.log.push event })

/-- Fails because the current token is not what was expected. -/
def refuse (expected : String) : ParseM α := fun parser =>
  (.error (parser.unexpected expected), parser)

/-- Fails because one more group would be too many. -/
def refuseDepth : ParseM α := fun parser =>
  (.error parser.tooDeep, parser)

/-- Consumes the current token, which has to be of the given kind. If the next one cannot be read,
    the current one stays. -/
def eat (kind : Kind) : ParseM Token := fun parser =>
  if parser.current.kind = kind then
    match parser.cursor.next with
    | (.ok token, after) =>
      (.ok parser.current,
        { parser with
          cursor := after
          current := token
          log := (parser.log ++ Event.ofRead token).push (.ate parser.current) })
    | (.error error, after) => (.error error, { parser with cursor := after })
  else refuse ("\x60" ++ kind.name ++ "\x60") parser

/-- Counts one more group as open, if there may be one. -/
def enterGroup : ParseM Unit := fun parser =>
  if parser.depth < maxDepth then (.ok (), { parser with depth := parser.depth + 1 })
  else refuseDepth parser

/-- Leaving when no group is open changes nothing. -/
def leaveGroup : ParseM Unit := fun parser =>
  (.ok (), { parser with depth := parser.depth - 1 })

theorem depth_eat {kind : Kind} {token : Token} {parser after : Parser}
    (h : eat kind parser = (.ok token, after)) : after.depth = parser.depth := by
  unfold eat at h
  split at h
  · split at h <;> cases h
    rfl
  · cases h

/-- A computation runs its second part only after a success of the first, and on the state which that
    left. -/
theorem run_bind (first : ParseM α) (second : α → ParseM β) (parser : Parser) :
    (first >>= second) parser =
      match first parser with
      | (.ok value, after) => second value after
      | (.error error, after) => (.error error, after) := by
  change (match first parser with | (result, after) => ExceptT.bindCont second result after) = _
  rcases first parser with ⟨_ | _, _⟩ <;> rfl

end ParseM

end Polish
