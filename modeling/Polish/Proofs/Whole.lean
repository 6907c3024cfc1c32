import Polish.Formula
import Polish.Proofs.Complete

/-! Whole texts. Parsing a text reads its first token and then a formula, and takes the tree if the mode
    bears with what stands behind it. -/

namespace Polish
open ParseM

variable {text : List Char} {label : String} {mode : Mode}

/-- The parser when a text has begun, whatever its log is. -/
structure Parser.Starts (parser : Parser) (text : List Char) (label : String) : Prop where
  read : (Cursor.ofText text label).next = (.ok parser.current, parser.cursor)
  depth : parser.depth = 0

namespace Parser.Starts
variable {parser after : Parser} {tokens : List Token}

theorem coherent (h : parser.Starts text label) : parser.current.Coherent :=
  (Cursor.step_of_next h.read).coherent

theorem reads (h : parser.Starts text label) (run : parser.Run tokens after) :
    (Cursor.ofText text label).Reads (tokens ++ [after.current]) after.cursor :=
  run.reads h.read

theorem ahead {cursor : Cursor} (h : parser.Starts text label) (hr : (Cursor.ofText text label).Reads tokens cursor)
    (hne : tokens ≠ []) : parser.Ahead tokens := by
  cases hr with
  | nil => exact absurd rfl hne
  | cons hn hr =>
    rw [h.read] at hn
    cases hn
    exact ⟨h.coherent, _, _, rfl, hr⟩

theorem verdict (h : parser.Starts text label) : Verdict .formula parser (formula parser) :=
  verdict_rule .formula h.coherent

end Parser.Starts

/-! ### The run of a whole text -/

/-- The parser before the first token, when the beginning has been recorded. -/
def Parser.begun (mode : Mode) (token : Token) (cursor : Cursor) : Parser :=
  ⟨cursor, token, 0, (Event.ofRead token).push (.began mode)⟩

theorem parseLogged_of_error {error : Error} {cursor : Cursor}
    (h : (Cursor.ofText text label).next = (.error error, cursor)) :
    parseLogged text label mode = (.error error, #[]) := by
  simp only [parseLogged, Parser.ofText?, h]

theorem parseLogged_of_next {token : Token} {cursor : Cursor}
    (h : (Cursor.ofText text label).next = (.ok token, cursor)) :
    parseLogged text label mode =
      match formula (.begun mode token cursor) with
      | (.error error, after) => (.error error, after.log)
      | (.ok tree, after) =>
        if after.current.kind = .endOfText then (.ok tree, after.log)
        else
          match mode with
          | .strict => (.error (after.unexpected "end of input"), after.log)
          | .lenient => (.ok tree, after.log.push (.trailing after.current.span.start.offset)) := by
  simp only [parseLogged, Parser.ofText?, h, whole, run_bind, record, current, Parser.begun]
  rcases formula ⟨cursor, token, 0, (Event.ofRead token).push (.began mode)⟩ with ⟨_ | tree, after⟩
  · rfl
  · by_cases hk : after.current.kind = .endOfText
    · simp only [hk, ↓reduceIte]
      rfl
    · simp only [hk, ↓reduceIte]
      cases mode <;> rfl

/-- How parsing a text is the run of one rule, and what the log holds besides the records of that run. -/
inductive Logged (text : List Char) (label : String) (mode : Mode) : Except Error Tree × Array Event → Prop
  | unread {error : Error} {cursor : Cursor} : (Cursor.ofText text label).next = (.error error, cursor) →
      Logged text label mode (.error error, #[])
  | failed {token : Token} {cursor : Cursor} {error : Error} {after : Parser} :
      (Cursor.ofText text label).next = (.ok token, cursor) →
      formula (.begun mode token cursor) = (.error error, after) → Logged text label mode (.error error, after.log)
  | refused {after : Parser} : Logged text label mode (.error (after.unexpected "end of input"), after.log)
  | read {token : Token} {cursor : Cursor} {tree : Tree} {after : Parser} {log : Array Event} :
      (Cursor.ofText text label).next = (.ok token, cursor) → formula (.begun mode token cursor) = (.ok tree, after) →
      log = after.log ∨ (∃ offset, log = after.log.push (.trailing offset)) → Logged text label mode (.ok tree, log)

theorem logged (text : List Char) (label : String) (mode : Mode) :
    Logged text label mode (parseLogged text label mode) := by
  rcases hn : (Cursor.ofText text label).next with ⟨error | token, cursor⟩
  · rw [parseLogged_of_error hn]
    exact .unread hn
  · rw [parseLogged_of_next hn]
    rcases hf : formula (.begun mode token cursor) with ⟨error | tree, after⟩
    · exact .failed hn hf
    · simp only
      by_cases hk : after.current.kind = .endOfText
      · rw [if_pos hk]
        exact .read hn hf (Or.inl rfl)
      · rw [if_neg hk]
        cases mode with
        | strict => exact .refused
        | lenient => exact .read hn hf (Or.inr ⟨_, rfl⟩)

/-- What parsing a text comes to. -/
inductive Parsing (text : List Char) (label : String) (mode : Mode) : Except Error Tree → Prop
  | unread {error : Error} {cursor : Cursor} : (Cursor.ofText text label).next = (.error error, cursor) →
      Parsing text label mode (.error error)
  | failed {parser after : Parser} {error : Error} : parser.Starts text label → Failed parser error after →
      Parsing text label mode (.error error)
  | trailing {parser after : Parser} {tokens : List Token} {tree : Tree} : parser.Starts text label →
      Parsed .formula parser tokens tree after → after.current.kind.power? = none →
      after.current.kind ≠ .endOfText → mode = .strict →
      Parsing text label mode (.error (after.unexpected "end of input"))
  | whole {parser after : Parser} {tokens : List Token} {tree : Tree} : parser.Starts text label →
      Parsed .formula parser tokens tree after → after.current.kind.power? = none →
      (mode = .strict → after.current.kind = .endOfText) → Parsing text label mode (.ok tree)

theorem parsing (text : List Char) (label : String) (mode : Mode) :
    Parsing text label mode (parse text label mode) := by
  rcases hn : (Cursor.ofText text label).next with ⟨error | token, cursor⟩
  · rw [parse, parseLogged_of_error hn]
    exact .unread hn
  · have starts : (Parser.begun mode token cursor).Starts text label := ⟨hn, rfl⟩
    rw [parse, parseLogged_of_next hn]
    rcases starts.verdict.split with ⟨tokens, tree, after, hf, h, ends⟩ | ⟨error, after, hf, h⟩
    · simp only [hf]
      by_cases hk : after.current.kind = .endOfText
      · simp only [hk, ↓reduceIte]
        exact .whole starts h ends fun _ => hk
      · simp only [hk, ↓reduceIte]
        cases mode with
        | strict => exact .trailing starts h ends hk rfl
        | lenient => exact .whole starts h ends nofun
    · simp only [hf]
      exact .failed starts h

theorem Parsing.of_eq {result : Except Error Tree} (h : parse text label mode = result) :
    Parsing text label mode result :=
  h ▸ parsing text label mode

/-- A formula at the front of a text, within the limits and with no operator behind it, is what the text is
    parsed to. -/
theorem parse_of_derives {tokens : List Token} {stop : Token} {cursor : Cursor} {shape : Shape}
    (hr : (Cursor.ofText text label).Reads (tokens ++ [stop]) cursor) (hd : Derives .formula tokens shape)
    (ends : stop.kind.power? = none) (shallow : Shallow maxDepth tokens) (low : shape.levels ≤ maxHeight)
    (hm : mode = .strict → stop.kind = .endOfText) :
    ∃ tree, parse text label mode = .ok tree ∧ tree.shape = shape := by
  obtain ⟨token, between, hn⟩ := hr.exists_next (by simp)
  have starts : (Parser.begun mode token between).Starts text label := ⟨hn, rfl⟩
  obtain ⟨tree, after, hf, hs, hcurrent⟩ := formula_of_derives hd (starts.ahead hr (by simp)) ends shallow low
  refine ⟨tree, ?_, hs⟩
  rw [parse, parseLogged_of_next hn]
  simp only [hf, hcurrent]
  cases mode with
  | strict => simp only [hm rfl, ↓reduceIte]
  | lenient => split <;> rfl

end Polish
