import Mathlib
import Polish.Proofs.Acceptance
import Polish.Proofs.Folding
import Polish.Proofs.Reprinting

/-! What the log says of a run. A token is recorded as read when it comes to be the next one, and as consumed when the
    token behind it has been read. So the records of the tokens that are consumed follow those of the tokens that are
    read, each of them right behind the record of the token after it. -/

namespace Polish
open Event ParseM

/-! ### Records of tokens -/

namespace Event
variable {log : Array Event} {stream : List Token} {token : Token}

/-- Each record of a token that was consumed stands right behind the record of the token that follows it in the stream.
    In front of these two, the tokens before it are consumed, and it is the last one that is read. There is no record
    of the end of the text. -/
def Prompt (log : Array Event) (stream : List Token) : Prop :=
  ∀ front token back, log = front.push (.ate token) ++ back →
    ∃ next more, stream = ateIn front ++ token :: next :: more ∧
      (next.kind ≠ .endOfText →
        ∃ earlier, front = earlier.push (.lexed next) ∧ lexedIn earlier = ateIn front ++ [token])

namespace Prompt

theorem of_ateIn_eq_nil (h : ateIn log = []) : Prompt log stream := by
  rintro front token back rfl
  have ate : ateIn #[.ate token] = [token] := rfl
  simp [ateIn_append, ateIn_push, ate] at h

theorem append (h : Prompt log stream) (more : List Token) : Prompt log (stream ++ more) := by
  intro front token back heq
  obtain ⟨next, others, hs, behind⟩ := h front token back heq
  exact ⟨next, others ++ more, by simp [hs], behind⟩

theorem push {event : Event} (h : Prompt log stream) (other : ateIn #[event] = []) : Prompt (log.push event) stream := by
  intro front token back heq
  rcases Array.push_eq_append_iff.mp heq with ⟨-, last⟩ | ⟨back', -, heq⟩
  · obtain ⟨rfl, -⟩ := Array.push_eq_push.mp last
    cases other
  · exact h front token back' heq

theorem read (h : Prompt log stream) (token : Token) : Prompt (log ++ ofRead token) stream := by
  unfold ofRead
  split
  · rwa [Array.append_empty]
  · exact h.push rfl

end Prompt

/-- The log is that of a run that has consumed these tokens and has read the one that follows. -/
structure Mirrors (log : Array Event) (tokens : List Token) (ahead : Token) : Prop where
  ate : ateIn log = tokens
  lexed : lexedIn log = tokens ++ [ahead].filter (·.kind ≠ .endOfText)
  prompt : Prompt log (tokens ++ [ahead])

namespace Mirrors
variable {tokens : List Token} {ahead : Token}

theorem isPrefix (h : Mirrors log tokens ahead) : ateIn log <+: lexedIn log := by
  rw [h.ate, h.lexed]
  exact List.prefix_append _ _

theorem push {event : Event} (h : Mirrors log tokens ahead) (ate : ateIn #[event] = []) (lexed : lexedIn #[event] = []) :
    Mirrors (log.push event) tokens ahead :=
  ⟨by rw [ateIn_push, ate, h.ate, List.append_nil], (lexedIn_push lexed).trans h.lexed, h.prompt.push ate⟩

/-- The token that follows is consumed, once the one behind it is read. -/
theorem consume {parser : Parser} (h : Mirrors parser.log tokens parser.current)
    (more : parser.current.kind ≠ .endOfText) (next : Token) (cursor : Cursor) :
    Mirrors (parser.consume next cursor).log (tokens ++ [parser.current]) next := by
  have lexed : lexedIn parser.log = tokens ++ [parser.current] := by
    rw [h.lexed, List.filter_cons_of_pos (by simpa using more), List.filter_nil]
  refine ⟨by rw [parser.ateIn_consume, h.ate], ?_, fun front token back heq => ?_⟩
  · rw [Parser.consume, lexedIn_push rfl, lexedIn_append, lexedIn_ofRead, lexed]
  · -- The record is the new one, in front of which the next token has just been read, or an older one.
    rcases Array.push_eq_append_iff.mp heq with ⟨-, last⟩ | ⟨back', -, heq⟩
    · obtain ⟨ate, rfl⟩ := Array.push_eq_push.mp last
      cases ate
      have before : ateIn (parser.log ++ ofRead next) = tokens := by
        rw [ateIn_append, ateIn_ofRead, List.append_nil, h.ate]
      refine ⟨next, [], by simp [before], fun hk => ⟨parser.log, ?_, by rw [before, lexed]⟩⟩
      rw [ofRead, if_neg hk]
      rfl
    · exact (h.prompt.append [next]).read next front token back' heq

end Mirrors

end Event

/-- The log of a parser mirrors what it does as long as it does not consume the end of the text. -/
theorem Parser.Run.mirrors {parser after : Parser} {tokens : List Token} (run : parser.Run tokens after)
    (more : ∀ token ∈ tokens, token.kind ≠ .endOfText) (h : Mirrors parser.log [] parser.current) :
    Mirrors after.log tokens after.current := by
  induction run with
  | refl => exact h
  | @eat here tokens next cursor _ _ ih =>
    obtain ⟨before, last⟩ := List.forall_mem_append.mp more
    exact (ih before).consume (last here.current (List.mem_singleton_self _)) next cursor
  | enter _ _ ih | leave _ ih => exact ih more
  | fold operator power _ ih => exact (ih more).push rfl rfl

theorem Parser.mirrors_begun (mode : Mode) (token : Token) (cursor : Cursor) :
    Mirrors (Parser.begun mode token cursor).log [] token := by
  have ate : ateIn (Parser.begun mode token cursor).log = [] := by
    rw [Parser.begun, ateIn_push, ateIn_ofRead]
    rfl
  refine ⟨ate, ?_, .of_ateIn_eq_nil ate⟩
  rw [Parser.begun, lexedIn_push rfl, lexedIn_ofRead, List.nil_append]

theorem Cause.log_eq {progress : Progress} {tokens : List Token} {here after : Parser} {error : Error}
    (h : Cause progress tokens here error after) : after.log = here.log := by
  cases h <;> rfl

/-! ### The log of a text -/

/-- What the log of parsing a text says, with the tree or without one. -/
inductive Recorded (text : List Char) (label : String) (mode : Mode) : Except Error Tree × Array Event → Prop
  | unread {error : Error} : Recorded text label mode (.error error, #[])
  | broken {error : Error} {log : Array Event} {tokens : List Token} {ahead : Token} : Mirrors log tokens ahead →
      Recorded text label mode (.error error, log)
  | whole {parser after : Parser} {tokens : List Token} {tree : Tree} {log : Array Event} : parser.Starts text label →
      Parsed .formula parser tokens tree after → after.current.kind.power? = none →
      (mode = .strict → after.current.kind = .endOfText) → Mirrors log tokens after.current →
      foldedIn log = tree.foldings → Recorded text label mode (.ok tree, log)

theorem recorded (text : List Char) (label : String) (mode : Mode) :
    Recorded text label mode (parseLogged text label mode) := by
  rcases hn : (Cursor.ofText text label).next with ⟨error | token, cursor⟩
  · rw [parseLogged_of_error hn]
    exact .unread
  · have starts : (Parser.begun mode token cursor).Starts text label := ⟨hn, rfl⟩
    have begun := Parser.mirrors_begun mode token cursor
    have settled : Settled .formula (.begun mode token cursor) (formula (.begun mode token cursor)) :=
      settled_rule .formula starts.coherent
    rw [parseLogged_of_next hn]
    generalize formula (.begun mode token cursor) = result at settled
    cases settled with
    | breaksOff h =>
      obtain ⟨tokens, progress, here, run, steps, cause⟩ := h.failed
      have mirrors := run.mirrors steps.kind_ne begun
      rw [← cause.log_eq] at mirrors
      exact .broken mirrors
    | @succeeds tokens tree after h ends =>
      have built := h.built
      have mirrors := built.run.mirrors built.steps.kind_ne begun
      have folded : foldedIn after.log = tree.foldings := by
        rw [built.folded, Parser.begun, foldedIn_push, foldedIn_ofRead]
        rfl
      by_cases hk : after.current.kind = .endOfText
      · simp only [hk, ↓reduceIte]
        exact .whole starts built.toParsed ends (fun _ => hk) mirrors folded
      · simp only [hk, ↓reduceIte]
        cases mode with
        | strict => exact .broken mirrors
        | lenient =>
          have folded' : foldedIn (after.log.push (.trailing after.current.span.start.offset)) = tree.foldings := by
            rw [foldedIn_push, folded]
            exact List.append_nil _
          exact .whole starts built.toParsed ends Mode.noConfusion (mirrors.push rfl rfl) folded'

/-- Where each operation has an operator, none is left out of the records. -/
theorem Tree.map_folding? {tree : Tree} (h : tree.shape.Operated) :
    tree.operations.map Tree.folding? = tree.foldings.map some := by
  induction tree with
  | literal => rfl
  | operation left operator right height span ihl ihr =>
    cases h with
    | operation hl hp hr =>
      obtain ⟨power, hp⟩ := Option.isSome_iff_exists.mp hp
      have own : folding? (.operation left operator right height span) = some (operator.kind, power) := by
        rw [folding?, hp]
        rfl
      have lefts := ihl hl
      have rights := ihr hr
      rw [foldings] at lefts rights
      simp [foldings, operations, own, lefts, rights]

/-- The log of a text that is evaluated mirrors how it is read. The tokens that it says were consumed are the first of
    those that it says were read. When there is a result, they are the formula of which the tree was made, the records
    of reading end with the token that is left over, and the operations of the tree are recorded in their order. -/
theorem log_mirrors_formula (text : List Char) (label : String) (mode : Mode) :
    ateIn (evaluateLogged text label mode).2 <+: lexedIn (evaluateLogged text label mode).2 ∧
    ∀ rendering, evaluate text label mode = .ok rendering → ∃ tree tokens stop cursor,
      parse text label mode = .ok tree ∧ rendering = tree.render ∧
      (Cursor.ofText text label).Reads (tokens ++ [stop]) cursor ∧ Derives .formula tokens tree.shape ∧
      tree.words = ungrouped tokens ∧ stop.kind ∉ [Kind.plus, .minus, .times, .divide] ∧
      (mode = .strict → stop.kind = .endOfText) ∧ Mirrors (evaluateLogged text label mode).2 tokens stop ∧
      tree.operations.map Tree.folding? = (foldedIn (evaluateLogged text label mode).2).map some := by
  have recorded := recorded text label mode
  rw [evaluate, evaluateLogged, parse]
  generalize parseLogged text label mode = result at recorded ⊢
  cases recorded with
  | unread =>
    refine ⟨List.nil_prefix, fun rendering h => ?_⟩
    cases h
  | broken mirrors =>
    refine ⟨mirrors.isPrefix, fun rendering h => ?_⟩
    cases h
  | @whole parser after tokens tree log starts parsed ends hm mirrors folded =>
    have mirrors' : Mirrors (log.push (.parsed tree)) tokens after.current := mirrors.push rfl rfl
    refine ⟨mirrors'.isPrefix, fun rendering h => ?_⟩
    cases h
    refine ⟨tree, tokens, after.current, after.cursor, rfl, rfl, starts.reads parsed.run, parsed.derives, parsed.words,
      Kind.power?_eq_none_iff.mp ends, hm, mirrors', ?_⟩
    have none : foldedIn #[.parsed tree] = [] := rfl
    rw [foldedIn_push, none, List.append_nil, folded]
    exact Tree.map_folding? parsed.derives.operated

/-- The token that is left over is read, and not consumed. -/
theorem log_mirrors_formula_with_leftover :
    evaluate ['(', '1', '+', '2', ')', '*', '3', ' ', '4'] "s" .lenient = .ok "(* (+ 1 2) 3)" ∧
    ∃ tokens stop, Mirrors (evaluateLogged ['(', '1', '+', '2', ')', '*', '3', ' ', '4'] "s" .lenient).2 tokens stop ∧
      stop.kind ∉ [Kind.plus, .minus, .times, .divide] := by
  have rendered : evaluate ['(', '1', '+', '2', ')', '*', '3', ' ', '4'] "s" .lenient = .ok "(* (+ 1 2) 3)" := by cbv
  obtain ⟨_, tokens, stop, _, -, -, -, -, -, hk, -, mirrors, -⟩ := (log_mirrors_formula _ "s" .lenient).2 _ rendered
  exact ⟨rendered, tokens, stop, mirrors, hk⟩

end Polish
