import Polish.Text.Utf8

/-! A console: two output streams, each of which may take only so many bytes, and all that was written
    to them, byte by byte and in order. -/

namespace Polish

/-- Renderings and listings go to `out`, and diagnostics to `err`. -/
inductive Stream
  | out
  | err
  deriving DecidableEq

/-- `outRoom` and `errRoom` are the bytes that the streams still take; without a number, a stream takes
    all. -/
structure Console where
  outRoom : Option Nat
  errRoom : Option Nat
  written : Array (Stream × UInt8)

/-- What ends a session before its time. -/
inductive Interruption
  /-- The input cannot be read, or a stream takes no more bytes. -/
  | failedStream
  /-- The caret of a diagnostic stands too far to the right. -/
  | caretTooFar
  deriving DecidableEq

/-- A computation that writes to the console; what was written before an interruption stays. -/
abbrev ConsoleM := ExceptT Interruption (StateM Console)

namespace Console

/-- A console with unlimited streams. -/
def unlimited : Console :=
  ⟨none, none, #[]⟩

/-- The bytes that a stream still takes; without a number it takes all. -/
def room (console : Console) : Stream → Option Nat
  | .out => console.outRoom
  | .err => console.errRoom

/-- Adds bytes that a stream has room for. -/
def put (console : Console) (stream : Stream) (bytes : List UInt8) : Console :=
  let written := console.written ++ bytes.map (stream, ·)
  match stream with
  | .out => { console with outRoom := console.outRoom.map (· - bytes.length), written }
  | .err => { console with errRoom := console.errRoom.map (· - bytes.length), written }

/-- Writes a text. A stream without enough room takes the bytes it has room for and fails; writing
    nothing never fails. -/
def write (stream : Stream) (text : String) : ConsoleM Unit := fun console =>
  let bytes := Utf8.encode text.toList
  let taken := ((console.room stream).map bytes.take).getD bytes
  (if taken.length = bytes.length then .ok () else .error .failedStream, console.put stream taken)

/-- Writes a text and ends the line. -/
def writeLine (stream : Stream) (text : String) : ConsoleM Unit :=
  write stream (text ++ "\n")

/-- The bytes written to one stream. -/
def bytes (console : Console) (stream : Stream) : List UInt8 :=
  console.written.toList.filterMap fun entry => if entry.1 = stream then some entry.2 else none

/-- What was written as text, in the longest pieces that went to one stream. -/
def transcript (console : Console) : List (Stream × String) :=
  (console.written.toList.splitBy fun one next => one.1 = next.1).filterMap fun piece =>
    piece.head?.map fun first => (first.1, String.ofList (Utf8.decode (piece.map (·.2))))

end Console

end Polish
