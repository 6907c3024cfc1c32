import Polish.Text.Concealed

/-! Quoted text: a character or a string between quotation marks, on one line and with every
    concealed character written out by its number. -/

namespace Polish

/-- A character is quoted singly, a string doubly. -/
inductive Quotation
  | single
  | double

/-- What stands on both sides of quoted text. -/
def Quotation.mark : Quotation → Char
  | .single => '\x27'
  | .double => '\x22'

/-- Writes one character between quotation marks; only the mark around it needs a backslash, the
    other one stands for itself. -/
def Quotation.escape (quotation : Quotation) (c : Char) : String :=
  match c with
  | '\x00' => "\\0"
  | '\t' => "\\t"
  | '\n' => "\\n"
  | '\r' => "\\r"
  | '\\' => "\\\\"
  | c =>
    if c = quotation.mark then "\\" ++ c.toString
    else if isConcealed c then "\\u\x7b" ++ String.ofList (Nat.toDigits 16 c.toNat) ++ "\x7d"
    else c.toString

/-- A character in single quotation marks. -/
def quoteChar (c : Char) : String :=
  "'" ++ Quotation.single.escape c ++ "'"

/-- A string in double quotation marks. -/
def quoteString (text : String) : String :=
  "\x22" ++ String.join (text.toList.map Quotation.double.escape) ++ "\x22"

end Polish
