import Mathlib
import Polish.Diagnostic
import Polish.Proofs.Extension
import Polish.Proofs.Lookahead
import Polish.Proofs.Unexpected

/-! The caret of a diagnostic. An error is at a place between two characters of its text, where what it is about
    begins, and the caret stands under that place in the text as it is shown. -/

namespace Polish

variable {text before rest : List Char} {label : String} {mode : Mode} {error : Error} {position : Position}

/-! ### What an error is about -/

theorem Spells.eq_symbol {before after word : List Char} {kind : Kind} {literal : Literal}
    (h : Spells before after word kind literal) (hk : kind ≠ .integer) : ∃ c, word = [c] ∧ (c, kind) ∈ symbols := by
  cases h with
  | @symbol c kind mem => exact ⟨c, rfl, mem⟩
  | integer => exact absurd rfl hk

/-- What stands behind `before` where there is a fault. -/
inductive Fault.Fronts (before : List Char) : Fault → List Char → Prop
  | lexical {fault : Fault} {rest : List Char} : Offence before rest fault → Fronts before fault rest
  | unexpected {expected : String} {token : Token} {word after : List Char} :
      Spells before after word token.kind token.literal →
      Fronts before (.unexpected expected token.describe) (word ++ after)
  | ending {expected : String} : Fronts before (.unexpected expected "end of input") []
  | depth {after : List Char} : Fronts before (.tooDeep maxDepth) ('(' :: after)
  | height {c : Char} {kind : Kind} {after : List Char} : (c, kind) ∈ symbols → kind.power?.isSome →
      Fronts before (.tooDeep maxHeight) (c :: after)

theorem Fault.Fronts.solid {fault : Fault} {c : Char} {after : List Char} (h : fault.Fronts before (c :: after)) :
    isBlank c = false := by
  generalize hr : c :: after = rest at h
  cases h with
  | lexical offence =>
    subst hr
    exact offence.isBlank_eq_false
  | unexpected spells =>
    obtain ⟨d, more, rfl, solid⟩ := spells.exists_cons
    cases hr
    exact solid
  | ending => cases hr
  | depth =>
    cases hr
    rfl
  | height mem =>
    cases hr
    exact not_isBlank_of_symbol mem

/-! ### Where an error is -/

/-- A token that was read stands in its text as a word, or it is the closing one. -/
theorem Cursor.Reads.place_last {front : List Token} {token : Token} {after : Cursor}
    (h : (ofText text label).Reads (front ++ [token]) after) (short : Utf8.size text < UInt32.size) :
    ∃ before rest, text = before ++ rest ∧ token.span.start.offset.toNat = Utf8.size before ∧
      (token.kind = .endOfText ∧ rest = [] ∨
        ∃ word more, rest = word ++ more ∧ Spells before more word token.kind token.literal) := by
  obtain ⟨between, hr, hr'⟩ := h.split
  obtain ⟨_, stands⟩ := hr.stands (stands_ofText text label)
  cases hr' with
  | cons hn _ =>
    by_cases last : token.kind = .endOfText
    · obtain ⟨start, -, -⟩ := stands.closing short hn last
      exact ⟨text, [], (List.append_nil text).symm, start, Or.inl ⟨last, rfl⟩⟩
    · obtain ⟨⟨before, word, more, split, start, -, spells⟩, -⟩ := stands.covers short hn last
      refine ⟨before, word ++ more, ?_, start, Or.inr ⟨word, more, rfl, spells⟩⟩
      rw [split, List.append_assoc]

theorem symbol_of_tooDeep {limit : Nat} (h : parse text label mode = .error ⟨.tooDeep limit, position⟩) :
    ∃ front token cursor, (Cursor.ofText text label).Reads (front ++ [token]) cursor ∧
      position = token.span.start ∧
      (limit = maxDepth ∧ token.kind = .openParen ∨ limit = maxHeight ∧ token.kind.power?.isSome) := by
  cases Parsing.of_eq h with
  | unread hn => exact (Cursor.of_next_eq_error hn).2.2.elim
  | failed starts hf =>
    obtain ⟨tokens, progress, here, run, -, cause⟩ := hf
    have reads := starts.reads run
    cases cause with
    | misread _ hn => exact (Cursor.of_next_eq_error hn).2.2.elim
    | depth _ hk => exact ⟨_, _, _, reads, rfl, Or.inl ⟨rfl, hk⟩⟩
    | @height front lefts rights operator power _ _ heq _ hp =>
      have split : tokens = front ++ lefts ++ [operator] ++ rights := by simp [heq]
      obtain ⟨_, reads, -⟩ := reads.split
      rw [split] at reads
      obtain ⟨_, reads, -⟩ := reads.split
      exact ⟨_, _, _, reads, rfl, Or.inr ⟨rfl, Option.isSome_of_eq_some hp⟩⟩

theorem fronts_of_unexpected {expected found : String} (short : Utf8.size text < UInt32.size)
    (h : parse text label mode = .error ⟨.unexpected expected found, position⟩) :
    ∃ before rest, text = before ++ rest ∧ position.offset.toNat = Utf8.size before ∧
      (Fault.unexpected expected found).Fronts before rest := by
  obtain ⟨front, token, _, _, reads, -, rfl, rfl, -⟩ := wanted_of_parse h
  obtain ⟨before, rest, split, start, ⟨last, rfl⟩ | ⟨word, more, rfl, spells⟩⟩ := reads.place_last short
  · rw [Token.describe, if_pos last]
    exact ⟨before, [], split, start, .ending⟩
  · exact ⟨before, _, split, start, .unexpected spells⟩

theorem fronts_of_tooDeep {limit : Nat} (short : Utf8.size text < UInt32.size)
    (h : parse text label mode = .error ⟨.tooDeep limit, position⟩) :
    ∃ before rest, text = before ++ rest ∧ position.offset.toNat = Utf8.size before ∧
      (Fault.tooDeep limit).Fronts before rest := by
  obtain ⟨front, token, _, reads, rfl, kind⟩ := symbol_of_tooDeep h
  have other : token.kind ≠ .endOfText ∧ token.kind ≠ .integer := by
    rcases kind with ⟨-, hk⟩ | ⟨-, hk⟩
    · rw [hk]
      decide
    · obtain ⟨h1, h2, -⟩ := Kind.of_isSome_power? hk
      exact ⟨h1, h2⟩
  obtain ⟨before, rest, split, start, ⟨last, -⟩ | ⟨word, more, rfl, spells⟩⟩ := reads.place_last short
  · exact absurd last other.1
  · obtain ⟨c, rfl, mem⟩ := spells.eq_symbol other.2
    refine ⟨before, c :: more, split, start, ?_⟩
    rcases kind with ⟨rfl, hk⟩ | ⟨rfl, hk⟩
    · rw [hk] at mem
      obtain rfl : c = '(' := by simpa [symbols] using mem
      exact .depth
    · exact .height mem hk

/-- An error is where what it is about begins. -/
theorem fronts_of_parse (h : parse text label mode = .error error) (short : Utf8.size text < UInt32.size) :
    ∃ before rest, text = before ++ rest ∧ error.position.offset.toNat = Utf8.size before ∧
      error.fault.Fronts before rest := by
  by_cases lexical : error.fault.Lexical
  · obtain ⟨cursor, before, stands, offence, position⟩ := stands_of_tokenize (tokenize_of_parse_error h lexical)
    refine ⟨before, cursor.rest, stands.split, ?_, .lexical offence⟩
    rw [position, stands.toNat_position short, stands.offset]
  · obtain ⟨fault, position⟩ := error
    cases fault with
    | unknownCharacter | integerOverflow => exact absurd trivial lexical
    | unexpected => exact fronts_of_unexpected short h
    | tooDeep => exact fronts_of_tooDeep short h

/-! ### Columns -/

theorem column_eq_length (before rest : List Char) : column (before ++ rest) (Utf8.size before) = before.length := by
  have inside : min (Utf8.size before) (Utf8.size (before ++ rest)) = Utf8.size before := by
    rw [Utf8.size_append]
    omega
  rw [column, inside, Utf8.drop?_size_append]
  simp

/-- A character that is not blank keeps its place behind the white space at the start. -/
theorem trimStart_append_cons {c : Char} (solid : isBlank c = false) (before after : List Char) :
    ∃ inner, trimStart (before ++ c :: after) = inner ++ c :: after ∧
      ((before ++ c :: after).takeWhile isBlank).length + inner.length = before.length := by
  induction before with
  | nil =>
    refine ⟨[], trimStart_of_not_isBlank solid after, ?_⟩
    rw [List.nil_append, List.takeWhile_cons_of_neg (by simp [solid])]
    rfl
  | cons d before ih =>
    rw [List.cons_append]
    -- Blanks are left out until the first character that is not blank, and nothing behind that one.
    by_cases blank : isBlank d = true
    · obtain ⟨inner, heq, hlen⟩ := ih
      refine ⟨inner, (trimStart_of_isBlank blank _).trans heq, ?_⟩
      rw [List.takeWhile_cons_of_pos blank, List.length_cons, List.length_cons]
      omega
    · refine ⟨d :: before, trimStart_of_not_isBlank (by simpa using blank) _, ?_⟩
      rw [List.takeWhile_cons_of_neg blank, List.length_nil, Nat.zero_add]

theorem length_takeWhile_add_trimStart (text : List Char) :
    (text.takeWhile isBlank).length + (trimStart text).length = text.length := by
  rw [trimStart, ← List.length_append, List.takeWhile_append_dropWhile]

/-- The error is between `before` and `rest`, and its diagnostic shows this. The caret has as many dashes before it as
    the text as it is shown has characters before the place, and both have four characters in front. -/
structure Caret (text : List Char) (error : Error) (before rest : List Char) : Prop where
  split : text = before ++ rest
  offset : error.position.offset.toNat = Utf8.size before
  inside : error.position.offset.toNat ≤ Utf8.size text
  boundary : Utf8.drop? error.position.offset.toNat text = some rest
  fronts : error.fault.Fronts before rest
  column : column text error.position.offset.toNat = before.length
  leading : (text.takeWhile isBlank).length ≤ Polish.column text error.position.offset.toNat
  under : ∀ c after, rest = c :: after → (trimEnd (trimStart text))[error.shownColumn text]? = some c
  behind : rest = [] → error.shownColumn text = (trimStart text).length
  drawn : error.shownColumn text + 1 ≤ maxCaretWidth → ∃ head,
    error.diagnostic? text = some (head ++
      ("1 | " ++ String.ofList (trimEnd (trimStart text)) ++ "\n" ++
        "  | " ++ String.ofList (List.replicate (error.shownColumn text) '-') ++ "^"))

theorem caret_of_fronts (offset : error.position.offset.toNat = Utf8.size before)
    (fronts : error.fault.Fronts before rest) : Caret (before ++ rest) error before rest := by
  have column := column_eq_length before rest
  have whole := length_takeWhile_add_trimStart (before ++ rest)
  have shown : error.shownColumn (before ++ rest) =
      before.length - ((before ++ rest).takeWhile isBlank).length := by
    rw [Error.shownColumn, offset, column]
  refine ⟨rfl, offset, ?_, ?_, fronts, offset ▸ column, ?_, ?_, ?_, fun narrow => ?_⟩
  · rw [offset]
    exact Utf8.size_le_append _ _
  · rw [offset]
    exact Utf8.drop?_size_append before rest
  · rw [offset, column]
    -- The white space at the start does not go beyond the place, since what stands there is not blank.
    cases rest with
    | nil =>
      rw [List.append_nil] at whole ⊢
      omega
    | cons c after =>
      obtain ⟨inner, -, length⟩ := trimStart_append_cons fronts.solid before after
      omega
  · rintro c after rfl
    obtain ⟨inner, trimmed, length⟩ := trimStart_append_cons fronts.solid before after
    have place : error.shownColumn (before ++ c :: after) = inner.length := by omega
    rw [place, trimmed, trimEnd, dropEndWhile_append_cons fronts.solid]
    simp
  · rintro rfl
    rw [List.append_nil] at whole shown ⊢
    omega
  · refine ⟨"Error: " ++ error.fault.name ++ " (" ++ error.fault.tip ++ ")\n" ++
      "-> " ++ error.position.label ++ "\n" ++ "  |\n", ?_⟩
    simp only [Error.diagnostic?, if_pos narrow, String.append_assoc]

/-- Every error of a text is at a place in it, and the caret of its diagnostic stands under what it is about. -/
theorem caret_under_fault (text : List Char) (label : String) (mode : Mode) (error : Error)
    (short : Utf8.size text < UInt32.size) (h : evaluate text label mode = .error error) :
    ∃ before rest, Caret text error before rest := by
  obtain ⟨before, rest, rfl, offset, fronts⟩ := fronts_of_parse (evaluate_eq_error_iff.mp h) short
  exact ⟨before, rest, caret_of_fronts offset fronts⟩

/-- The white space at the start is three bytes long, and the character that begins no token two. -/
theorem caret_under_wide_character : Utf8.size ['\u3000', '1', '+', '\u00e9', ' '] < UInt32.size ∧
    evaluate ['\u3000', '1', '+', '\u00e9', ' '] "s" .lenient = .error ⟨.unknownCharacter '\u00e9', ⟨5, "s"⟩⟩ ∧
    ∃ before rest,
      Caret ['\u3000', '1', '+', '\u00e9', ' '] ⟨.unknownCharacter '\u00e9', ⟨5, "s"⟩⟩ before rest := by
  have failed : evaluate ['\u3000', '1', '+', '\u00e9', ' '] "s" .lenient =
      .error ⟨.unknownCharacter '\u00e9', ⟨5, "s"⟩⟩ := by cbv
  exact ⟨by decide, failed, caret_under_fault _ "s" .lenient _ (by decide) failed⟩

end Polish
