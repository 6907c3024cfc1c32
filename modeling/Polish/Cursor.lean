import Polish.Error
import Polish.Text.Blank
import Polish.Text.Utf8
import Polish.Token

/-! Reading tokens from the front of a text. `Lexeme.first` looks at the characters alone; a `Cursor`
    adds where they stand. Each token is as long as it can be, and reading one needs nothing that
    stands after it. -/

namespace Polish

/-- The number that decimal digits stand for. -/
def decimal (digits : List Char) : Nat :=
  digits.foldl (fun number digit => number * 10 + (digit.toNat - '0'.toNat)) 0

/-- What a text without white space at its start begins with. -/
inductive Lexeme
  | nothing
  /-- A token that is `size` bytes long, and the characters after it. -/
  | token (kind : Kind) (literal : Literal) (size : Nat) (rest : List Char)
  | fault (fault : Fault)

/-- Reads a digit and those that follow it as one integer. -/
def Lexeme.integer (digit : Char) (text : List Char) : Lexeme :=
  let digits := digit :: text.takeWhile Char.isDigit
  if decimal digits ≤ Int64.maxValue.toNatClampNeg then
    .token .integer (.integer (Int64.ofNat (decimal digits))) digits.length (text.dropWhile Char.isDigit)
  else .fault (.integerOverflow (String.ofList digits))

/-- Looks at what a text begins with: a symbol, a run of digits or neither. -/
def Lexeme.first : List Char → Lexeme
  | [] => .nothing
  | c :: text =>
    match Kind.ofSymbol? c with
    | some kind => .token kind (.symbol c) c.utf8Size text
    | none => if c.isDigit then Lexeme.integer c text else .fault (.unknownCharacter c)

theorem Lexeme.length_lt_of_first {text : List Char} {kind : Kind} {literal : Literal} {size : Nat}
    {rest : List Char} (h : Lexeme.first text = .token kind literal size rest) :
    rest.length < text.length := by
  cases text with
  | nil => simp [Lexeme.first] at h
  | cons c text =>
    simp only [Lexeme.first] at h
    split at h
    · cases h; simp
    · split at h
      · simp only [Lexeme.integer] at h
        split at h
        · cases h
          exact Nat.lt_succ_of_le (List.dropWhile_suffix _).length_le
        · cases h
      · cases h

/-- The part of a labelled text that has not been read, which begins at byte `offset`. -/
structure Cursor where
  offset : Nat
  rest : List Char
  label : String

namespace Cursor

/-- The cursor in front of a text. -/
def ofText (text : List Char) (label : String) : Cursor :=
  ⟨0, text, label⟩

/-- The place in front of what is left to read. -/
def position (cursor : Cursor) : Position :=
  ⟨UInt32.ofNat cursor.offset, cursor.label⟩

/-- Moves over the characters up to `rest`, `size` bytes in all. -/
def skip (cursor : Cursor) (size : Nat) (rest : List Char) : Cursor :=
  ⟨cursor.offset + size, rest, cursor.label⟩

/-- Moves over the white space in front of the next token. -/
def skipBlanks (cursor : Cursor) : Cursor :=
  cursor.skip (Utf8.size (cursor.rest.takeWhile isBlank)) (trimStart cursor.rest)

/-- Reads the next token. At the end of the text that is the closing one, however often it is read.
    A fault leaves the cursor where the fault is, past the white space before it. -/
def next (cursor : Cursor) : Except Error Token × Cursor :=
  let here := cursor.skipBlanks
  match Lexeme.first here.rest with
  | .nothing => (.ok ⟨.endOfText, .none, here.position, here.position⟩, here)
  | .token kind literal size rest =>
    (.ok ⟨kind, literal, here.position, (here.skip size rest).position⟩, here.skip size rest)
  | .fault fault => (.error ⟨fault, here.position⟩, here)

theorem length_skipBlanks_le (cursor : Cursor) : cursor.skipBlanks.rest.length ≤ cursor.rest.length :=
  (List.dropWhile_suffix isBlank).length_le

theorem length_next_lt {cursor after : Cursor} {token : Token} (h : cursor.next = (.ok token, after))
    (more : token.kind ≠ .endOfText) : after.rest.length < cursor.rest.length := by
  simp only [next] at h
  split at h
  · cases h; exact absurd rfl more
  · next first => cases h; exact Nat.lt_of_lt_of_le (Lexeme.length_lt_of_first first) cursor.length_skipBlanks_le
  · cases h

/-- Reads all tokens up to and with the closing one, or up to the first fault. -/
def tokens (cursor : Cursor) : Except Error (List Token) :=
  match h : cursor.next with
  | (.error error, _) => .error error
  | (.ok token, after) =>
    if more : token.kind = .endOfText then .ok [token]
    else
      have := length_next_lt h more
      return token :: (← after.tokens)
termination_by cursor.rest.length

theorem tokens_eq (cursor : Cursor) :
    cursor.tokens =
      match cursor.next with
      | (.error error, _) => .error error
      | (.ok token, after) =>
        if token.kind = .endOfText then .ok [token] else after.tokens.map (token :: ·) := by
  rw [tokens]
  split
  · next h => simp only [h]
  · next after h =>
    simp only [h]
    split
    · rfl
    · cases after.tokens <;> rfl

end Cursor

/-- All tokens of a text. -/
def tokenize (text : List Char) (label : String) : Except Error (List Token) :=
  (Cursor.ofText text label).tokens

end Polish
