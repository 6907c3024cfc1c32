/-! Places in a text. An offset counts bytes and is kept in 32 bits, so it wraps in a text of 2^32
    bytes or more. -/

namespace Polish

/-- A place in the text that goes by a label. -/
structure Position where
  offset : UInt32
  label : String
  deriving DecidableEq

/-- Stands where no text is at hand. -/
def Position.null : Position :=
  ⟨0, "<null>"⟩

/-- What lies from `start` up to `stop`, without the character at `stop`. -/
structure Span where
  start : Position
  stop : Position
  deriving DecidableEq

end Polish
