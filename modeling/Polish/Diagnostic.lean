import Polish.Error
import Polish.Text.Blank
import Polish.Text.Utf8

/-! Diagnostics: an error shown with the text it is about and a caret under the place.

        Error: SyntaxError (Expected `RParen`, found end of input)
        -> shell
          |
        1 | (1 + 2
          | ------^
-/

namespace Polish

/-- The widest run of dashes and caret that can be written. -/
def maxCaretWidth : Nat := 65535

/-- The number of characters before a byte offset, which is cut to the size of the text; 0 for an
    offset inside a character. -/
def column (text : List Char) (offset : Nat) : Nat :=
  match Utf8.drop? (min offset (Utf8.size text)) text with
  | some rest => text.length - rest.length
  | none => 0

/-- The column of an error in the text as it is shown, which is without the white space at its
    start. -/
def Error.shownColumn (error : Error) (text : List Char) : Nat :=
  column text error.position.offset.toNat - (text.takeWhile isBlank).length

/-- There is no diagnostic if the caret would stand too far to the right. -/
def Error.diagnostic? (error : Error) (text : List Char) : Option String :=
  let dashes := error.shownColumn text
  if dashes + 1 ≤ maxCaretWidth then
    some <|
      "Error: " ++ error.fault.name ++ " (" ++ error.fault.tip ++ ")\n" ++
      "-> " ++ error.position.label ++ "\n" ++
      "  |\n" ++
      "1 | " ++ String.ofList (trimEnd (trimStart text)) ++ "\n" ++
      "  | " ++ String.ofList (List.replicate dashes '-') ++ "^"
  else none

end Polish
