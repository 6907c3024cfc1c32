import Mathlib
import Polish.Proofs.Composition
import Polish.Proofs.Tiling
import Polish.Proofs.Whole

/-! Texts that go on. Where one text is the beginning of another and no number goes across its end, both are read
    alike up to there, so parsing does the same in both until it has come to the end of the shorter one. What was
    decided before then stays decided, the errors that do not come from the end of the text among it. -/

namespace Polish
open ParseM

/-! ### Reading -/

theorem Parted.of_suffix {before rest after : List Char} (h : Parted before after) (hs : rest <:+ before) :
    Parted rest after := by
  intro c d hc hd
  obtain ⟨front, rfl⟩ := hs
  exact h c d (by rw [List.getLast?_append, hc, Option.some_or]) hd

/-- The lexeme in a text that has more behind it. -/
def Lexeme.extend (more : List Char) : Lexeme → Lexeme
  | .nothing => .nothing
  | .token kind literal size rest => .token kind literal size (rest ++ more)
  | .fault cause => .fault cause

theorem DigitRun.extend {digits rest more : List Char} (run : DigitRun [] digits rest)
    (parted : Parted (digits ++ rest) more) : DigitRun [] digits (rest ++ more) := by
  refine ⟨run.ne_nil, run.digits, run.left, fun d hd => ?_⟩
  -- Only a number that ends with the text could go on in the one behind it.
  cases rest with
  | cons c rest => exact run.right d hd
  | nil =>
    obtain ⟨front, last, rfl⟩ := List.eq_nil_or_concat digits |>.resolve_left run.ne_nil
    rw [List.concat_eq_append, List.append_nil] at parted
    exact parted last d List.getLast?_concat hd (run.digits last (by simp))

theorem Lexeme.View.extend {text more : List Char} {lexeme : Lexeme} (h : View text lexeme) (hne : text ≠ [])
    (parted : Parted text more) : View (text ++ more) (lexeme.extend more) := by
  cases h with
  | nothing => exact absurd rfl hne
  | symbol mem => exact .symbol mem
  | integer run low =>
    rw [List.append_assoc]
    exact .integer (run.extend parted) low
  | overflow run high =>
    rw [List.append_assoc]
    exact .overflow (run.extend parted) high
  | unknown none other => exact .unknown none other

theorem Lexeme.eq_nil_of_first {text : List Char} (h : Lexeme.first text = .nothing) : text = [] := by
  have view := Lexeme.view_first text
  rw [h] at view
  cases view
  rfl

theorem Lexeme.suffix_of_first {text rest : List Char} {kind : Kind} {literal : Literal} {size : Nat}
    (h : Lexeme.first text = .token kind literal size rest) : rest <:+ text := by
  have view := Lexeme.view_first text
  rw [h] at view
  cases view with
  | symbol => exact List.suffix_cons _ _
  | integer => exact List.suffix_append _ _

namespace Cursor

/-- The cursor in a text that has more behind it. -/
def extend (cursor : Cursor) (more : List Char) : Cursor :=
  { cursor with rest := cursor.rest ++ more }

theorem extend_ofText (text more : List Char) (label : String) :
    (ofText text label).extend more = ofText (text ++ more) label := rfl

/-- At the end of a text there is nothing but white space. -/
theorem rest_skipBlanks_of_endOfText {cursor : Cursor} {last : Token} (h : cursor.next.1 = .ok last)
    (hk : last.kind = .endOfText) : cursor.skipBlanks.rest = [] := by
  simp only [next] at h
  split at h
  · next first => exact Lexeme.eq_nil_of_first first
  · next first =>
    cases h
    exact absurd hk (Lexeme.of_first_eq_token first).1
  · cases h

theorem suffix_next (cursor : Cursor) : cursor.next.2.rest <:+ cursor.rest := by
  have here : cursor.skipBlanks.rest <:+ cursor.rest := List.dropWhile_suffix isBlank
  simp only [next]
  split
  · exact here
  · next first => exact (Lexeme.suffix_of_first first).trans here
  · exact here

theorem skipBlanks_extend {cursor : Cursor} (h : cursor.skipBlanks.rest ≠ []) (more : List Char) :
    (cursor.extend more).skipBlanks = cursor.skipBlanks.extend more := by
  have left : cursor.rest.dropWhile isBlank ≠ [] := h
  have whole := congrArg List.length (List.takeWhile_append_dropWhile (p := isBlank) (l := cursor.rest))
  have short : (cursor.rest.takeWhile isBlank).length ≠ cursor.rest.length := by
    rw [List.length_append] at whole
    have := List.length_pos_of_ne_nil left
    omega
  have taken : (cursor.rest ++ more).takeWhile isBlank = cursor.rest.takeWhile isBlank := by
    rw [List.takeWhile_append, if_neg short]
  have dropped : trimStart (cursor.rest ++ more) = trimStart cursor.rest ++ more := by
    rw [trimStart, List.dropWhile_append, if_neg fun h => left (List.isEmpty_iff.mp h)]
    rfl
  simp only [skipBlanks, skip, extend, taken, dropped]

/-- Unless the text has ended, what is read does not depend on what stands behind it. -/
theorem next_extend (cursor : Cursor) {more : List Char} (parted : Parted cursor.rest more)
    (unended : ∀ token, cursor.next.1 = .ok token → token.kind ≠ .endOfText) :
    (cursor.extend more).next = (cursor.next.1, cursor.next.2.extend more) := by
  have left : cursor.skipBlanks.rest ≠ [] := by
    intro nothing
    simp only [next, nothing, Lexeme.first] at unended
    exact unended _ rfl rfl
  have suffix : cursor.skipBlanks.rest <:+ cursor.rest := List.dropWhile_suffix isBlank
  have first := ((Lexeme.view_first cursor.skipBlanks.rest).extend left (parted.of_suffix suffix)).first_eq
  have position : (cursor.skipBlanks.extend more).position = cursor.skipBlanks.position := rfl
  simp only [next, skipBlanks_extend left]
  rw [show (cursor.skipBlanks.extend more).rest = cursor.skipBlanks.rest ++ more from rfl, first]
  cases hf : Lexeme.first cursor.skipBlanks.rest <;> rfl

section
variable {cursor after : Cursor} {token : Token} {tokens : List Token} {error : Error} {more : List Char}

theorem next_extend_of_error (h : cursor.next = (.error error, after)) (parted : Parted cursor.rest more) :
    (cursor.extend more).next = (.error error, after.extend more) := by
  have next := cursor.next_extend parted fun token hk => by rw [h] at hk; cases hk
  rwa [h] at next

/-- In front of a token that is not the closing one, the cursor stands as it does in the shorter text. -/
theorem next_extend_of_ok (h : cursor.next = (.ok token, after)) (unended : token.kind ≠ .endOfText)
    (parted : Parted cursor.rest more) :
    (cursor.extend more).next = (.ok token, after.extend more) ∧ Parted after.rest more := by
  have next := cursor.next_extend parted fun token' hk => by
    rw [h] at hk
    cases hk
    exact unended
  have suffix := cursor.suffix_next
  rw [h] at next suffix
  exact ⟨next, parted.of_suffix suffix⟩

/-- Tokens in front of the end of a text are read alike if the text goes on. -/
theorem Reads.extend (h : Reads cursor tokens after) (unended : ∀ token ∈ tokens, token.kind ≠ .endOfText)
    (parted : Parted cursor.rest more) :
    Reads (cursor.extend more) tokens (after.extend more) ∧ Parted after.rest more := by
  induction h with
  | nil => exact ⟨.nil, parted⟩
  | cons hn _ ih =>
    obtain ⟨first, others⟩ := List.forall_mem_cons.mp unended
    obtain ⟨next, parted⟩ := next_extend_of_ok hn first parted
    obtain ⟨reads, parted⟩ := ih others parted
    exact ⟨.cons next reads, parted⟩

end

end Cursor

/-! ### Parsing -/

/-- The fault is found before the end of the text, so it is there however the text goes on. An operation that is
    too high is found only when the token behind it is read. -/
def Fault.Lasting : Fault → Prop
  | .unknownCharacter _ | .integerOverflow _ => True
  | .unexpected _ found => found ≠ "end of input"
  | .tooDeep limit => limit = maxDepth

/-- The computation has come to the end of the text, and it has found no fault that lasts. -/
structure Ended {α : Type} (outcome : Except Error α × Parser) : Prop where
  current : outcome.2.current.kind = .endOfText
  passing : ∀ error, outcome.1 = .error error → ¬error.fault.Lasting

/-- The parser on a text that has more behind it. -/
def Parser.extend (parser : Parser) (more : List Char) : Parser :=
  { parser with cursor := parser.cursor.extend more }

theorem Parser.unexpected_not_lasting {parser : Parser} (h : parser.current.kind = .endOfText) (expected : String) :
    ¬(parser.unexpected expected).fault.Lasting := by
  simp [unexpected, Token.describe, h, Fault.Lasting]

namespace ParseM
variable {α β : Type} {more : List Char} {first : ParseM α} {second : α → ParseM β} {group : ParseM Tree}

/-- Where the text has ended, nothing is found that lasts. -/
def Passing (action : ParseM α) : Prop :=
  ∀ parser : Parser, parser.current.kind = .endOfText → Ended (action parser)

/-- If there is more behind the text the computation does the same, unless it comes to the end of the text. -/
def Steady (more : List Char) (action : ParseM α) : Prop :=
  ∀ parser : Parser, Parted parser.cursor.rest more →
    Parted (action parser).2.cursor.rest more ∧
        action (parser.extend more) = ((action parser).1, (action parser).2.extend more) ∨
      Ended (action parser)

theorem ended_bind {parser : Parser} (h : Ended (first parser)) (h' : ∀ value, Passing (second value)) :
    Ended ((first >>= second) parser) := by
  obtain ⟨kind, passing⟩ := h
  rw [run_bind]
  rcases hf : first parser with ⟨error | value, after⟩ <;> rw [hf] at kind passing
  · refine ⟨kind, fun error he => ?_⟩
    cases he
    exact passing _ rfl
  · exact h' value after kind

theorem Passing.bind (h : Passing first) (h' : ∀ value, Passing (second value)) : Passing (first >>= second) :=
  fun parser hk => ended_bind (h parser hk) h'

theorem Steady.bind (h : Steady more first) (h' : ∀ value, Steady more (second value))
    (h'' : ∀ value, Passing (second value)) : Steady more (first >>= second) := by
  intro parser parted
  rcases h parser parted with ⟨parted, same⟩ | ended
  · rw [run_bind first second parser, run_bind first second (parser.extend more), same]
    rcases hf : first parser with ⟨error | value, after⟩ <;> rw [hf] at parted
    · exact Or.inl ⟨parted, rfl⟩
    · exact h' value after parted
  · -- After the end of the text, whatever comes second finds no fault that lasts either.
    exact Or.inr (ended_bind ended h'')

/-! ### Single steps -/

/-- A step that reads nothing does the same on every text. -/
theorem steady_of_unread {action : ParseM α} (h : ∀ parser, (action parser).2.cursor = parser.cursor ∧
      action (parser.extend more) = ((action parser).1, (action parser).2.extend more)) : Steady more action := by
  intro parser parted
  obtain ⟨unread, same⟩ := h parser
  exact Or.inl ⟨unread ▸ parted, same⟩

theorem passing_of_ok {action : ParseM α} (value : Parser → α) (change : Parser → Parser)
    (h : ∀ parser, action parser = (.ok (value parser), change parser))
    (current : ∀ parser, (change parser).current = parser.current) : Passing action := by
  intro parser hk
  rw [h parser]
  exact ⟨(congrArg Token.kind (current parser)).trans hk, nofun⟩

theorem passing_refuse (expected : String) : Passing (refuse expected : ParseM α) := by
  intro parser hk
  refine ⟨hk, fun error he => ?_⟩
  cases he
  exact parser.unexpected_not_lasting hk expected

theorem passing_eat {kind : Kind} (h : kind ≠ .endOfText) : Passing (eat kind) := by
  intro parser hk
  rw [eat_of_ne (hk ▸ h.symm)]
  exact passing_refuse _ parser hk

theorem steady_eat (kind : Kind) : Steady more (eat kind) := by
  intro parser parted
  by_cases hk : parser.current.kind = kind
  · have hk' : (parser.extend more).current.kind = kind := hk
    rcases hn : parser.cursor.next with ⟨error | token, after⟩
    · have suffix := parser.cursor.suffix_next
      rw [hn] at suffix
      rw [eat_of_error hk hn, eat_of_error hk' (Cursor.next_extend_of_error hn parted)]
      exact Or.inl ⟨parted.of_suffix suffix, rfl⟩
    · rw [eat_of_next hk hn]
      by_cases last : token.kind = .endOfText
      · exact Or.inr ⟨last, nofun⟩
      · obtain ⟨next, parted⟩ := Cursor.next_extend_of_ok hn last parted
        rw [eat_of_next hk' next]
        exact Or.inl ⟨parted, rfl⟩
  · have hk' : (parser.extend more).current.kind ≠ kind := hk
    rw [eat_of_ne hk, eat_of_ne hk']
    exact Or.inl ⟨parted, rfl⟩

theorem steady_enterGroup : Steady more enterGroup := by
  refine steady_of_unread fun parser => ?_
  by_cases lt : parser.depth < maxDepth
  · have lt' : (parser.extend more).depth < maxDepth := lt
    rw [enterGroup_of_lt lt, enterGroup_of_lt lt']
    exact ⟨rfl, rfl⟩
  · have lt' : ¬(parser.extend more).depth < maxDepth := lt
    simp only [enterGroup, if_neg lt, if_neg lt']
    exact ⟨rfl, rfl⟩

theorem steady_record (event : Event) : Steady more (record event) ∧ Passing (record event) :=
  ⟨steady_of_unread fun _ => ⟨rfl, rfl⟩, passing_of_ok _ _ (fun _ => rfl) fun _ => rfl⟩

/-! ### Rules -/

theorem composed_steady (more : List Char) : Composed fun action => Steady more action ∧ Passing action where
  pure value := ⟨steady_of_unread fun _ => ⟨rfl, rfl⟩, passing_of_ok _ id (fun _ => rfl) fun _ => rfl⟩
  bind h h' := ⟨h.1.bind (fun value => (h' value).1) fun value => (h' value).2, h.2.bind fun value => (h' value).2⟩
  current := ⟨steady_of_unread fun _ => ⟨rfl, rfl⟩, passing_of_ok _ id (fun _ => rfl) fun _ => rfl⟩
  fold operator power := steady_record _
  eat kind h := ⟨steady_eat kind, passing_eat h⟩
  refuse expected := ⟨steady_of_unread fun _ => ⟨rfl, rfl⟩, passing_refuse expected⟩
  tooHigh position := by
    refine ⟨steady_of_unread fun _ => ⟨rfl, rfl⟩, fun parser hk => ⟨hk, fun error he => ?_⟩⟩
    cases he
    exact (by decide : maxHeight ≠ maxDepth)
  leaveGroup := ⟨steady_of_unread fun _ => ⟨rfl, rfl⟩, passing_of_ok _ _ (fun _ => rfl) fun _ => rfl⟩

/-- A group is read only where a parenthesis opens it, so at the end of the text none is. -/
theorem passing_factorOf (group : ParseM Tree) : Passing (factorOf group) := by
  intro parser hk
  by_cases hl : ∃ value, parser.current.literal = .integer value
  · obtain ⟨value, hl⟩ := hl
    rw [factorOf_of_integer hl, eat_of_ne (hk ▸ nofun)]
    exact passing_refuse _ parser hk
  · rw [factorOf_of_ne fun value h => hl ⟨value, h⟩, if_neg (hk ▸ nofun)]
    exact passing_refuse _ parser hk

/-- Looking at a token is the same everywhere, so what depends on it may be a computation that is not passing. -/
theorem steady_current_bind {second : Token → ParseM β} (h : ∀ token, Steady more (second token)) :
    Steady more (current >>= second) :=
  fun parser => h parser.current parser

theorem steady_factorOf (h : Steady more group) : Steady more (factorOf group) := by
  have composed := composed_steady more
  refine steady_current_bind fun token => ?_
  split
  · exact (composed.bind (composed.eat .integer nofun) fun token => composed.pure _).1
  · split
    · exact h
    · exact (composed.refuse _).1

theorem steady_groupWithin (room : Nat) : Steady more (groupWithin room) := by
  have composed := composed_steady more
  induction room with
  | zero => exact steady_of_unread fun _ => ⟨rfl, rfl⟩
  | succ room ih =>
    have grouped := composed.grouped (composed.rule_of_factorOf ⟨steady_factorOf ih, passing_factorOf _⟩ .formula)
    exact steady_enterGroup.bind (fun _ => grouped.1) fun _ => grouped.2

theorem steady_formula : Steady more formula ∧ Passing formula := by
  have rule (room : Nat) := (composed_steady more).rule_of_factorOf
    ⟨steady_factorOf (steady_groupWithin room), passing_factorOf (groupWithin room)⟩ .formula
  exact ⟨fun parser => (rule (maxDepth - parser.depth)).1 parser,
    fun parser => (rule (maxDepth - parser.depth)).2 parser⟩

theorem steady_whole (more : List Char) (mode : Mode) : Steady more (whole mode) ∧ Passing (whole mode) := by
  have composed := composed_steady more
  refine composed.bind (steady_record _) fun _ => composed.bind steady_formula fun tree => ?_
  refine composed.bind composed.current fun token => ?_
  split
  · exact composed.pure tree
  · cases mode with
    | strict => exact composed.refuse _
    | lenient => exact composed.bind (steady_record _) fun _ => composed.pure tree

end ParseM

/-! ### Whole texts -/

variable {text more : List Char} {label : String} {mode : Mode}

/-- The token at which the parser stands when it is done with a text. -/
def stop? (text : List Char) (label : String) (mode : Mode) : Option Token :=
  match Parser.ofText? text label with
  | .ok parser => some (whole mode parser).2.current
  | .error _ => none

theorem parse_of_error {error : Error} {cursor : Cursor}
    (h : (Cursor.ofText text label).next = (.error error, cursor)) : parse text label mode = .error error := by
  rw [parse, parseLogged_of_error h]

theorem parse_of_next {token : Token} {cursor : Cursor} (h : (Cursor.ofText text label).next = (.ok token, cursor))
    (mode : Mode) : parse text label mode = (whole mode ⟨cursor, token, 0, Event.ofRead token⟩).1 ∧
      stop? text label mode = some (whole mode ⟨cursor, token, 0, Event.ofRead token⟩).2.current := by
  simp only [parse, parseLogged, stop?, Parser.ofText?, h]
  trivial

/-- More text changes nothing, unless the parser comes to the end of what it has without a fault that lasts. -/
theorem parse_append (parted : Parted text more) (label : String) (mode : Mode) :
    parse (text ++ more) label mode = parse text label mode ∨
      (∀ token, stop? text label mode = some token → token.kind = .endOfText) ∧
        ∀ error, parse text label mode = .error error → ¬error.fault.Lasting := by
  obtain ⟨steady, passing⟩ := steady_whole more mode
  rcases hn : (Cursor.ofText text label).next with ⟨error | token, after⟩
  · have next := Cursor.next_extend_of_error hn parted
    exact Or.inl ((parse_of_error next).trans (parse_of_error hn).symm)
  · obtain ⟨hp, hs⟩ := parse_of_next hn mode
    rw [hp, hs]
    by_cases hk : token.kind = .endOfText
    · obtain ⟨kind, passing⟩ := passing ⟨after, token, 0, Event.ofRead token⟩ hk
      exact Or.inr ⟨fun stop hs => Option.some.inj hs ▸ kind, passing⟩
    · obtain ⟨next, parted⟩ := Cursor.next_extend_of_ok hn hk parted
      have longer : parse (text ++ more) label mode = _ := (parse_of_next next mode).1
      rcases steady ⟨after, token, 0, Event.ofRead token⟩ parted with ⟨-, same⟩ | ⟨kind, passing⟩
      · exact Or.inl (longer.trans (congrArg Prod.fst same :))
      · exact Or.inr ⟨fun stop hs => Option.some.inj hs ▸ kind, passing⟩

theorem evaluate_eq_error_iff {error : Error} :
    evaluate text label mode = .error error ↔ parse text label mode = .error error := by
  rw [evaluate_eq_map_parse]
  cases parse text label mode <;> simp [Except.map]

/-- What has been decided before the end of a text is the same in every text that goes on from there: the errors
    that do not come from its end, and what is read leniently where tokens are left over. -/
theorem evaluate_append (text more : List Char) (label : String) (parted : Parted text more) :
    (∀ mode error, evaluate text label mode = .error error → error.fault.Lasting →
      evaluate (text ++ more) label mode = .error error) ∧
    ∀ tree token, parse text label .lenient = .ok tree → stop? text label .lenient = some token →
      token.kind ≠ .endOfText → parse (text ++ more) label .lenient = .ok tree := by
  refine ⟨fun mode error h lasting => ?_, fun tree token h hs hk => ?_⟩
  · rw [evaluate_eq_error_iff] at h ⊢
    rcases parse_append parted label mode with same | ⟨-, passing⟩
    · exact same.trans h
    · exact absurd lasting (passing error h)
  · rcases parse_append parted label .lenient with same | ⟨ended, -⟩
    · exact same.trans h
    · exact absurd (ended token hs) hk

/-- A text that ends with a digit goes on with an operator, after an error and after a tree. -/
theorem evaluate_append_operator : Parted ['(', '1', ' ', '2'] ['+'] ∧
    evaluate (['(', '1', ' ', '2'] ++ ['+']) "s" .strict = .error ⟨.unexpected "\x60RParen\x60" "\x602\x60", ⟨3, "s"⟩⟩ ∧
    Parted ['1', ' ', '2'] ['+'] ∧
    parse (['1', ' ', '2'] ++ ['+']) "s" .lenient = .ok (.literal 1 ⟨⟨0, "s"⟩, ⟨1, "s"⟩⟩) := by
  have parted (front : List Char) : Parted (front ++ ['2']) ['+'] := by
    intro _ d _ hd _
    cases hd
    rfl
  refine ⟨parted ['(', '1', ' '], ?_, parted ['1', ' '], ?_⟩
  · exact (evaluate_append _ _ "s" (parted ['(', '1', ' '])).1 .strict _ (by cbv) (by simp [Fault.Lasting])
  · have left : stop? ['1', ' ', '2'] "s" .lenient = some ⟨.integer, .integer 2, ⟨⟨2, "s"⟩, ⟨3, "s"⟩⟩⟩ := by cbv
    exact (evaluate_append _ _ "s" (parted ['1', ' '])).2 _ _ (by cbv) left (by decide)

end Polish
