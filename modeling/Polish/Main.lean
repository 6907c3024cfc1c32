import Polish.Command

/-! The executable. It takes the turns of a session one at a time, so that each line is answered before
    the next one is read. -/

namespace Polish

/-- Does on the streams of the process what a computation writes to a console. -/
def perform (action : ConsoleM Unit) : IO (Except Interruption Unit) := do
  let (result, console) := action .unlimited
  for (stream, text) in console.transcript do
    match stream with
    | .out => (← IO.getStdout).putStr text
    | .err => (← IO.getStderr).putStr text
  (← IO.getStdout).flush
  return result

/-- Reads up to the end of a line; the answer is its bytes and whether a newline ended it. -/
partial def readLine (input : IO.FS.Stream) (read : Array UInt8) : IO (List UInt8 × Bool) := do
  match (← input.read 1).toList.head? with
  | none => return (read.toList, false)
  | some 0x0A => return (read.toList, true)
  | some b => readLine input (read.push b)

/-- Takes turns until the input ends. -/
partial def serve (options : Options) (input : IO.FS.Stream) : IO (Except Interruption Unit) := do
  let _ ← perform (Console.write .out options.prompt)
  let (line, ended) ← readLine input #[]
  if line.isEmpty && !ended then perform (Console.writeLine .out "")
  else
    match ← perform (Session.respond options (lineText line)) with
    | .ok () => serve options input
    | .error interruption => return .error interruption

end Polish

/-- Runs the command on the streams of the process. -/
def main (arguments : List String) : IO UInt32 := do
  match Polish.Options.ofArguments? arguments with
  | .error refusal =>
    (← IO.getStdout).putStr refusal.shown
    return refusal.exitCode
  | .ok options =>
    try
      match ← Polish.serve options (← IO.getStdin) with
      | .ok () => return 0
      | .error interruption => return interruption.exitCode
    catch _ => return Polish.Interruption.failedStream.exitCode
