import Polish.Parser.Rules

/-! A text as a formula: its tree and its rendering, each beside the log of how it was read. -/

namespace Polish

/-- Parses a text, with the log up to the tree or the error. -/
def parseLogged (text : List Char) (label : String) (mode : Mode) : Except Error Tree × Array Event :=
  match Parser.ofText? text label with
  | .ok parser =>
    let (result, after) := ParseM.whole mode parser
    (result, after.log)
  | .error error => (.error error, #[])

/-- The tree of a text, or the error for which it has none. -/
def parse (text : List Char) (label : String) (mode : Mode) : Except Error Tree :=
  (parseLogged text label mode).1

/-- Renders a text, with the log of parsing it and of the tree. -/
def evaluateLogged (text : List Char) (label : String) (mode : Mode) :
    Except Error String × Array Event :=
  match parseLogged text label mode with
  | (.ok tree, log) => (.ok tree.render, log.push (.parsed tree))
  | (.error error, log) => (.error error, log)

/-- The rendering of a text, or the error for which it has none. -/
def evaluate (text : List Char) (label : String) (mode : Mode) : Except Error String :=
  (evaluateLogged text label mode).1

theorem evaluate_eq_map_parse (text : List Char) (label : String) (mode : Mode) :
    evaluate text label mode = (parse text label mode).map Tree.render := by
  unfold evaluate evaluateLogged parse
  rcases parseLogged text label mode with ⟨_ | _, _⟩ <;> rfl

/-- The label of texts that come with none. -/
def defaultLabel : String := "shell"

/-- The label of a text that comes with one or with none. -/
def labelOf (given : Option String) : String :=
  given.getD defaultLabel

@[simp] theorem labelOf_some (label : String) : labelOf (some label) = label := rfl

@[simp] theorem labelOf_none : labelOf none = "shell" := rfl

/-- The mode of parsing where none is asked for. -/
def defaultMode : Mode := .lenient

end Polish
