import Mathlib
import Polish.Proofs.Whole

/-! Syntax errors. A text is refused at the first token that no formula has at its place, and the error says
    what was missing there: an operand, the end of a group or the end of the text. -/

namespace Polish

variable {text : List Char} {label : String} {mode : Mode} {expected found : String} {position : Position}
  {progress : Progress} {before : List Token} {token : Token}

/-! ### What is missing -/

/-- What is wanted after so much progress, in place of a token that does not fit. -/
inductive Wanted (mode : Mode) : Progress → Kind → String → Prop
  | operand {groups : Nat} {kind : Kind} : kind ≠ .integer → kind ≠ .openParen →
      Wanted mode ⟨groups, .operand⟩ kind "an operand"
  | closing {groups : Nat} {kind : Kind} : kind ≠ .closeParen → kind.power? = none →
      Wanted mode ⟨groups + 1, .operator⟩ kind "\x60RParen\x60"
  | ending {kind : Kind} : kind ≠ .endOfText → kind.power? = none → mode = .strict →
      Wanted mode ⟨0, .operator⟩ kind "end of input"

theorem Wanted.not_viable (h : Wanted mode progress token.kind expected) (hs : Progress.Steps .start before progress) :
    ¬Viable (before ++ [token]) := by
  rw [viable_concat_iff hs]
  cases h with
  | operand h1 h2 =>
    intro hv
    rcases hv with ⟨_, hs⟩ | ⟨-, hp⟩
    · cases hs with
      | integer hk _ => exact h1 hk
      | opening hk => exact h2 hk
    · cases hp
  | closing h1 h2 =>
    intro hv
    rcases hv with ⟨_, hs⟩ | ⟨-, hp⟩
    · cases hs with
      | operator hk => rw [h2] at hk; cases hk
      | closing hk => exact h1 hk
    · cases hp
  | ending h1 h2 _ =>
    intro hv
    rcases hv with ⟨_, hs⟩ | ⟨hk, -⟩
    · cases hs with
      | operator hk => rw [h2] at hk; cases hk
    · exact h1 hk

theorem wanted_of_parse (h : parse text label mode = .error ⟨.unexpected expected found, position⟩) :
    ∃ before token progress cursor, (Cursor.ofText text label).Reads (before ++ [token]) cursor ∧
      Progress.Steps .start before progress ∧ position = token.span.start ∧ found = token.describe ∧
      Wanted mode progress token.kind expected := by
  cases Parsing.of_eq h with
  | unread hn => exact (Cursor.of_next_eq_error hn).2.2.elim
  | failed starts hf =>
    obtain ⟨before, progress, here, run, steps, cause⟩ := hf
    have reads := starts.reads run
    rw [starts.depth] at steps
    obtain ⟨groups, due⟩ := progress
    cases cause with
    | misread _ hn => exact (Cursor.of_next_eq_error hn).2.2.elim
    | operand hdue h1 h2 =>
      cases hdue
      exact ⟨before, _, _, _, reads, steps, rfl, rfl, .operand h1 h2⟩
    | closing hdue hg h1 h2 =>
      cases hdue
      obtain ⟨groups, rfl⟩ := Nat.exists_eq_succ_of_ne_zero (Nat.ne_of_gt hg)
      exact ⟨before, _, _, _, reads, steps, rfl, rfl, .closing h1 h2⟩
  | @trailing parser after tokens _ starts parsed ends hk hm =>
    have steps := parsed.derives.steps 0
    exact ⟨tokens, after.current, _, _, starts.reads parsed.run, steps, rfl, rfl, .ending hk ends hm⟩

/-! ### What the error says -/

/-- The error of a refused text is right: it is at `token`, which is the first that no formula has in its
    place, and it says what is missing behind `before`. -/
structure Unexpected (text : List Char) (label : String) (mode : Mode) (expected found : String) (position : Position)
    (before : List Token) (token : Token) : Prop where
  begins : (Cursor.ofText text label).Begins before
  nth : (Cursor.ofText text label).nth before.length = .ok token
  position_eq : position = token.span.start
  found_eq : found = token.describe
  viable : Viable before
  not_viable : ¬Viable (before ++ [token])
  expected_eq : expected = "an operand" ∨ expected = "\x60RParen\x60" ∨ expected = "end of input"
  operand : expected = "an operand" ↔ ∀ kind, MayFollow before kind ↔ kind = .integer ∨ kind = .openParen
  closing : expected = "\x60RParen\x60" ↔ EndsInOperand before ∧ closes before < opens before
  ending : expected = "end of input" ↔ ∃ shape, Derives .formula before shape
  strict : expected = "end of input" → mode = .strict

/-- Every syntax error, in either mode, is at the first token that cannot be there, and is right about what
    was missing. -/
theorem unexpected_of_parse (h : parse text label mode = .error ⟨.unexpected expected found, position⟩) :
    ∃ before token, Unexpected text label mode expected found position before token := by
  obtain ⟨before, token, progress, cursor, reads, steps, hp, hf, wanted⟩ := wanted_of_parse h
  obtain ⟨hb, hn, -⟩ := Cursor.reads_concat_iff.mp reads
  have groups : opens before = closes before + progress.groups := steps.opens_eq
  have complete : (∃ shape, Derives .formula before shape) ↔ progress = ⟨0, .operator⟩ := by
    rw [← steps_start_iff]
    exact ⟨steps.unique, fun h => h ▸ steps⟩
  -- What was wanted determines the progress, and the progress all that the error has to say.
  refine ⟨before, token, hb, hn, hp, hf, viable_of_steps steps, wanted.not_viable steps, ?_, ?_, ?_, ?_, ?_⟩
  · cases wanted with
    | operand => exact Or.inl rfl
    | closing => exact Or.inr (Or.inl rfl)
    | ending => exact Or.inr (Or.inr rfl)
  · rw [mayFollow_iff_of_steps steps]
    cases wanted <;> simp
  · rw [endsInOperand_iff_of_steps steps, groups]
    cases wanted <;> simp
  · rw [complete]
    cases wanted <;> simp
  · cases wanted with
    | operand | closing => simp
    | ending _ _ hm => exact fun _ => hm

theorem unexpected_of_open_group :
    ∃ before token, Unexpected ['(', '1'] "s" .lenient "\x60RParen\x60" "end of input" ⟨2, "s"⟩ before token :=
  unexpected_of_parse (by cbv)

end Polish
