import Polish.Formula

/-! The options of a session, and how they are read from command-line arguments.

    Arguments are read from left to right. A flag that takes a value is settled only when the next
    flag comes or the arguments end: that it lacks its value or was given before is found then, and an
    argument that is refused by itself is found first. -/

namespace Polish

/-- What a session is asked to do. -/
structure Options where
  /-- Tokens after a complete formula are refused. -/
  strict : Bool
  /-- The tokens of each line are listed. -/
  tokens : Bool
  /-- Written before each line is read. -/
  prompt : String
  /-- The label of every line. -/
  label : String
  deriving DecidableEq

/-- The mode in which the lines are parsed. -/
def Options.mode (options : Options) : Mode :=
  if options.strict then .strict else .lenient

/-- Why there is no session. The first two ask for a text to be shown in its place. -/
inductive Refusal
  | help
  | version
  | unknownArgument
  | missingValue
  | repeatedFlag
  | needlessValue
  deriving DecidableEq

/-- A flag without a value. -/
inductive Switch
  | strict
  | tokens
  deriving DecidableEq

/-- A flag that takes a value. -/
inductive ValueFlag
  | prompt
  | label
  deriving DecidableEq

/-- What one argument says by itself. -/
inductive Argument
  | switch (flag : Switch)
  | flag (flag : ValueFlag)
  | flagWith (flag : ValueFlag) (value : String)
  | help
  | version
  /-- Everything after it is no flag. -/
  | separator
  /-- The value of a flag that waits for one, and else nothing known. -/
  | plain (text : String)
  | refused (refusal : Refusal)
  deriving DecidableEq

/-- Reads a long flag after its dashes: a name, and a value if an equals sign follows. -/
def Argument.ofLong (text : List Char) : Argument :=
  let name := String.ofList (text.takeWhile (· ≠ '='))
  match text.dropWhile (· ≠ '=') with
  | [] =>
    match name with
    | "strict" => .switch .strict
    | "tokens" => .switch .tokens
    | "prompt" => .flag .prompt
    | "file" => .flag .label
    | "help" => .help
    | "version" => .version
    | _ => .refused .unknownArgument
  | _ :: value =>
    match name with
    | "strict" | "tokens" | "help" | "version" => .refused .needlessValue
    | "prompt" => .flagWith .prompt (String.ofList value)
    | "file" => .flagWith .label (String.ofList value)
    | _ => .refused .unknownArgument

/-- Letters after one dash are flags of their own, of which each that is known ends the reading. -/
def Argument.ofString (text : String) : Argument :=
  match text.toList with
  | ['-', '-'] => .separator
  | '-' :: '-' :: long => ofLong long
  | ['-'] => .plain text
  | '-' :: 'h' :: _ => .help
  | '-' :: 'V' :: _ => .version
  | '-' :: _ => .refused .unknownArgument
  | _ => .plain text

/-- The arguments read so far. `waiting` is a flag that is not settled, with its value if it has come. -/
structure Arguments where
  strict : Bool
  tokens : Bool
  prompt : Option String
  label : Option String
  waiting : Option (ValueFlag × Option String)

namespace Arguments

/-- No argument has been read. -/
def empty : Arguments :=
  ⟨false, false, none, none, none⟩

/-- Gives a value to a flag that has none. -/
def give (arguments : Arguments) (flag : ValueFlag) (value : String) : Except Refusal Arguments :=
  match flag, arguments.prompt, arguments.label with
  | .prompt, none, _ => .ok { arguments with prompt := some value }
  | .label, _, none => .ok { arguments with label := some value }
  | _, _, _ => .error .repeatedFlag

/-- Gives the waiting flag its value, which must have come. -/
def settle (arguments : Arguments) : Except Refusal Arguments :=
  match arguments.waiting with
  | none => .ok arguments
  | some (_, none) => .error .missingValue
  | some (flag, some value) => { arguments with waiting := none }.give flag value

/-- Turns on a switch, which may be done once. -/
def turnOn (arguments : Arguments) (flag : Switch) : Except Refusal Arguments :=
  match flag, arguments.strict, arguments.tokens with
  | .strict, false, _ => .ok { arguments with strict := true }
  | .tokens, _, false => .ok { arguments with tokens := true }
  | _, _, _ => .error .repeatedFlag

/-- Reads one argument. Every flag settles the one that waits. -/
def read (arguments : Arguments) : Argument → Except Refusal Arguments
  | .switch flag => do (← arguments.settle).turnOn flag
  | .flag flag => return { (← arguments.settle) with waiting := some (flag, none) }
  | .flagWith flag value => do (← arguments.settle).give flag value
  | .help => do let _ ← arguments.settle; throw .help
  | .version => do let _ ← arguments.settle; throw .version
  | .separator => .ok arguments
  | .plain text =>
    match arguments.waiting with
    | some (flag, none) => .ok { arguments with waiting := some (flag, some text) }
    | _ => .error .unknownArgument
  | .refused refusal => .error refusal

/-- Reads the arguments that are left. After a separator there may be none. -/
def readAll (arguments : Arguments) : List Argument → Except Refusal Arguments
  | [] => arguments.settle
  | .separator :: rest => if rest.isEmpty then arguments.settle else .error .unknownArgument
  | argument :: rest => do (← arguments.read argument).readAll rest

end Arguments

/-- Reads the arguments of a command; what they do not give has its usual value. -/
def Options.ofArguments? (arguments : List String) : Except Refusal Options := do
  let read ← Arguments.empty.readAll (arguments.map Argument.ofString)
  return ⟨read.strict, read.tokens, read.prompt.getD "calc> ", labelOf read.label⟩

end Polish
