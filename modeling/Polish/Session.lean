import Polish.Console
import Polish.Diagnostic
import Polish.Options

/-! Sessions: lines are read one after another, and each is answered by its rendering or a diagnostic.
    What a line is answered depends on nothing before it. -/

namespace Polish

/-- The bytes that a session reads. After them reading either ends or fails. -/
structure Input where
  bytes : List UInt8
  fails : Bool

/-- The lines of bytes that end in a newline, without it, and what stands after the last of them. -/
def splitLines : List UInt8 → List (List UInt8) × List UInt8
  | [] => ([], [])
  | b :: bytes =>
    match b == 0x0A, splitLines bytes with
    | true, (lines, last) => ([] :: lines, last)
    | false, (line :: lines, last) => ((b :: line) :: lines, last)
    | false, ([], last) => ([], b :: last)

/-- The lines to be answered. A last one without a newline is lost when reading fails, as it is not
    known whether it has ended. -/
def Input.lines (input : Input) : List (List UInt8) :=
  let (lines, last) := splitLines input.bytes
  if input.fails || last.isEmpty then lines else lines ++ [last]

/-- The text of a line, without the carriage returns at its end. -/
def lineText (line : List UInt8) : List Char :=
  dropEndWhile (· = '\r') (Utf8.decode line)

namespace Session

open Console

/-- Lists the tokens of a line, if that is asked for and all of them can be read. -/
def list (options : Options) (line : List Char) : ConsoleM Unit :=
  if options.tokens then
    match tokenize line options.label with
    | .ok tokens => tokens.forM fun token => writeLine .out token.entry
    | .error _ => return
  else return

/-- Renders a line on the one stream, or says on the other why it cannot. -/
def answer (options : Options) (line : List Char) : ConsoleM Unit :=
  match evaluate line options.label options.mode with
  | .ok rendered => writeLine .out rendered
  | .error error =>
    match error.diagnostic? line with
    | some diagnostic => writeLine .err diagnostic
    | none => throw .caretTooFar

/-- A line of white space has no answer. -/
def respond (options : Options) (line : List Char) : ConsoleM Unit :=
  if line.all isBlank then return
  else do
    list options line
    answer options line

/-- The prompt comes before the line is read. -/
def turn (options : Options) (line : List UInt8) : ConsoleM Unit := do
  write .out options.prompt
  respond options (lineText line)

/-- Takes a turn for each line, and prompts once more before it is known that there is none. -/
def run (options : Options) (input : Input) : ConsoleM Unit := do
  input.lines.forM (turn options)
  write .out options.prompt
  if input.fails then throw .failedStream else writeLine .out ""

end Session

end Polish
