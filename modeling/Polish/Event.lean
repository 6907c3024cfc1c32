import Polish.Inspect

/-! The events that reading a formula leaves in the log. -/

namespace Polish

/-- What to do with tokens after a complete formula. -/
inductive Mode
  /-- They are ignored. -/
  | lenient
  /-- They are refused. -/
  | strict
  deriving DecidableEq

/-- A mode as the log names it. -/
def Mode.name : Mode → String
  | .lenient => "Lenient"
  | .strict => "Strict"

/-- What is done while a formula is read. -/
inductive Event
  /-- A token was read; the end of the text leaves no such event. -/
  | lexed (token : Token)
  /-- The first token is there, and parsing begins. -/
  | began (mode : Mode)
  /-- A token was consumed, after the next one had been read. -/
  | ate (token : Token)
  /-- An operator gets both its operands. -/
  | folding (operator : Kind) (power : Power)
  /-- Tokens are left over from this offset on. -/
  | trailing (offset : UInt32)
  /-- The formula is complete. -/
  | parsed (tree : Tree)
  deriving DecidableEq

/-- How detailed an event is, from single tokens to the whole formula. -/
inductive Level
  | trace
  | debug
  deriving DecidableEq

/-- A level as the log names it. -/
def Level.name : Level → String
  | .trace => "TRACE"
  | .debug => "DEBUG"

/-- Events of single tokens and operators are traced; the others are about the whole formula. -/
def Event.level : Event → Level
  | .lexed _ | .ate _ | .folding _ _ => .trace
  | .began _ | .trailing _ | .parsed _ => .debug

/-- An event in words. -/
def Event.message : Event → String
  | .lexed token => "lexed " ++ token.entry
  | .began mode => "parsing in " ++ mode.name ++ " mode"
  | .ate token => "ate " ++ token.entry
  | .folding operator power => "folding " ++ operator.name ++ " at " ++ power.name
  | .trailing offset => "ignoring trailing input at position " ++ offset.toNat.repr
  | .parsed tree => "parsed tree: " ++ tree.inspect

end Polish
