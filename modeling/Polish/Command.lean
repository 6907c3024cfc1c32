import Polish.Session

/-! The command: its arguments, what it shows in place of a session, and how it ends. -/

namespace Polish

/-- What is shown to those who ask for help. -/
def helpText : String :=
  String.join
    ["Renders integer arithmetic expressions as fully-parenthesized prefix notation\n",
      "\n",
      "Usage: prefix-calc [OPTIONS]\n",
      "\n",
      "Options:\n",
      "      --strict           Reject input that follows a complete expression\n",
      "      --prompt <PROMPT>  Prompt printed before each line is read [default: \x22calc> \x22]\n",
      "      --tokens           Print the token stream of each line before rendering it\n",
      "      --file <FILE>      Name shown in error diagnostics [default: shell]\n",
      "  -h, --help             Print help\n",
      "  -V, --version          Print version\n"]

/-- The name of the command and its version. -/
def versionText : String :=
  "prefix-calc 0.1.0\n"

/-- What is shown in place of a session. -/
def Refusal.shown : Refusal → String
  | .help => helpText
  | .version => versionText
  | .unknownArgument | .missingValue | .repeatedFlag | .needlessValue => ""

/-- Showing what was asked for is a success, and arguments that cannot be read are an error of usage. -/
def Refusal.exitCode : Refusal → UInt32
  | .help | .version => 0
  | .unknownArgument | .missingValue | .repeatedFlag | .needlessValue => 2

/-- A failing stream and a crash have exit codes of their own. -/
def Interruption.exitCode : Interruption → UInt32
  | .failedStream => 1
  | .caretTooFar => 101

/-- The exit code of a command and the text on each of its streams. -/
structure Outcome where
  exitCode : UInt32
  out : String
  err : String

/-- Runs the command on all of its input. -/
def execute (arguments : List String) (input : Input) : Outcome :=
  match Options.ofArguments? arguments with
  | .error refusal => ⟨refusal.exitCode, refusal.shown, ""⟩
  | .ok options =>
    let (result, console) := Session.run options input .unlimited
    let text := fun stream => String.ofList (Utf8.decode (console.bytes stream))
    match result with
    | .ok () => ⟨0, text .out, text .err⟩
    | .error interruption => ⟨interruption.exitCode, text .out, text .err⟩

end Polish
