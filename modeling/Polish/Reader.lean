import Polish.Cursor

/-! A reader over a whole text, which reads tokens and can also be moved ahead by any number of bytes.
    It may then stand inside a character, where nothing can be read: such an answer is `none`. -/

namespace Polish

/-- A text and the byte of it that is to be read next. -/
structure Reader where
  text : List Char
  offset : Nat
  label : String

namespace Reader

/-- The reader in front of a text. -/
def ofText (text : List Char) (label : String) : Reader :=
  ⟨text, 0, label⟩

/-- The place that the reader has come to. -/
def position (reader : Reader) : Position :=
  ⟨UInt32.ofNat reader.offset, reader.label⟩

/-- The reader has come to the end of the text. -/
def atEnd (reader : Reader) : Bool :=
  Utf8.size reader.text ≤ reader.offset

/-- Moves ahead, but not past the end of the text. -/
def advance (reader : Reader) (bytes : Nat) : Reader :=
  { reader with offset := min (reader.offset + bytes) (Utf8.size reader.text) }

/-- What is left to read. -/
def rest? (reader : Reader) : Option (List Char) :=
  Utf8.drop? reader.offset reader.text

/-- The character to be read next, if the text has not ended. -/
def peek? (reader : Reader) : Option (Option Char) :=
  reader.rest?.map List.head?

/-- The cursor at the same place, where there is one. -/
def cursor? (reader : Reader) : Option Cursor :=
  reader.rest?.map fun rest => ⟨reader.offset, rest, reader.label⟩

/-- Reads the next token; a reader inside a character stays there. -/
def next (reader : Reader) : Option (Except Error Token) × Reader :=
  match reader.cursor? with
  | some cursor => (some cursor.next.1, { reader with offset := cursor.next.2.offset })
  | none => (none, reader)

end Reader

end Polish
