import Mathlib
import Polish.Proofs.Whole

/-! The parser reads no token before it has consumed the one before it, while `tokenize` reads all tokens of a
    text at once. Both read from one stream, so they meet the same fault, unless the parser stops before it. -/

namespace Polish

variable {text : List Char} {label : String} {mode : Mode} {error : Error} {tree : Tree}

/-- An error of parsing is the fault that the stream has next, or it is about a token that has been read. -/
theorem error_of_parse (h : parse text label mode = .error error) :
    ∃ tokens cursor, (Cursor.ofText text label).Reads tokens cursor ∧
      ((∀ token ∈ tokens, token.kind ≠ .endOfText) ∧ cursor.next.1 = .error error ∨
        ¬error.fault.Lexical ∧ ∃ token ∈ tokens, error.position = token.span.start) := by
  cases Parsing.of_eq h with
  | unread hn => exact ⟨[], _, .nil, Or.inl ⟨nofun, by rw [hn]⟩⟩
  | @trailing _ after tokens _ starts parsed _ _ _ =>
    have reads := starts.reads parsed.run
    exact ⟨_, _, reads, Or.inr ⟨id, after.current, List.mem_concat_self, rfl⟩⟩
  | failed starts hf =>
    obtain ⟨tokens, progress, here, run, steps, cause⟩ := hf
    have reads := starts.reads run
    refine ⟨_, _, reads, ?_⟩
    cases cause with
    | misread hs hn => exact Or.inl ⟨(steps.concat hs).kind_ne, by rw [hn]⟩
    | operand | closing | depth => exact Or.inr ⟨id, _, List.mem_concat_self, rfl⟩
    | height heq => exact Or.inr ⟨id, _, by rw [heq]; simp, rfl⟩

theorem tokenize_of_parse_error (h : parse text label mode = .error error) (lexical : error.fault.Lexical) :
    tokenize text label = .error error := by
  obtain ⟨tokens, cursor, hr, ⟨more, hf⟩ | ⟨syntactic, -⟩⟩ := error_of_parse h
  · exact Cursor.tokens_eq_error_iff.mpr ⟨tokens, cursor, hr, more, hf⟩
  · exact absurd lexical syntactic

/-- Every token that was read before a fault lies before it. -/
theorem span_lt_fault {tokens : List Token} {cursor : Cursor} (h : tokenize text label = .error error)
    (short : Utf8.size text < UInt32.size) (hr : (Cursor.ofText text label).Reads tokens cursor) :
    ∀ token ∈ tokens, token.kind ≠ .endOfText ∧ token.span.start.offset.toNat < token.span.stop.offset.toNat ∧
      token.span.stop.offset.toNat ≤ error.position.offset.toNat := by
  intro token ht
  obtain ⟨front, between, hr', more, hf⟩ := Cursor.tokens_eq_error_iff.mp h
  rw [← Cursor.finish_ofText text label] at short
  have mem : token ∈ front := (hr.isPrefix_of_error hr' hf).subset ht
  obtain ⟨-, hstop, hlt⟩ := hr'.span short token mem
  exact ⟨more token mem, hlt (more token mem), Nat.le_trans hstop (hr'.offset_le_of_error short hf)⟩

theorem parse_strict_of_tokenize_error (h : tokenize text label = .error error) (short : Utf8.size text < UInt32.size) :
    ∃ error', parse text label .strict = .error error' ∧
      (error' = error ∨ ¬error'.fault.Lexical ∧ error'.position.offset < error.position.offset) := by
  rcases hp : parse text label .strict with error' | tree
  · refine ⟨error', rfl, ?_⟩
    obtain ⟨tokens, cursor, hr, ⟨more, hf⟩ | ⟨syntactic, token, ht, hpos⟩⟩ := error_of_parse hp
    · have h' := Cursor.tokens_eq_error_iff.mpr ⟨tokens, cursor, hr, more, hf⟩
      rw [← tokenize, h] at h'
      cases h'
      exact Or.inl rfl
    · obtain ⟨-, h1, h2⟩ := span_lt_fault h short hr token ht
      rw [hpos]
      exact Or.inr ⟨syntactic, UInt32.lt_iff_toNat_lt.mpr (Nat.lt_of_lt_of_le h1 h2)⟩
  · cases Parsing.of_eq hp with
    | @whole _ after _ _ starts parsed _ hm =>
      -- The closing token has been read, so there is no fault before it.
      obtain ⟨more, -⟩ := span_lt_fault h short (starts.reads parsed.run) after.current List.mem_concat_self
      exact absurd (hm rfl) more

theorem parse_lenient_of_tokenize_error (h : tokenize text label = .error error) (short : Utf8.size text < UInt32.size)
    (hp : parse text label .lenient = .ok tree) : ∃ index token, (Cursor.ofText text label).nth index = .ok token ∧
      token.kind ≠ .endOfText ∧ tree.span.stop.offset ≤ token.span.start.offset ∧
      token.span.stop.offset ≤ error.position.offset := by
  cases Parsing.of_eq hp with
  | @whole parser after tokens _ starts parsed _ _ =>
    have reads := starts.reads parsed.run
    obtain ⟨more, -, hstop⟩ := span_lt_fault h short reads after.current List.mem_concat_self
    obtain ⟨-, hn, -⟩ := Cursor.reads_concat_iff.mp reads
    refine ⟨tokens.length, after.current, hn, more, ?_, UInt32.le_iff_toNat_le.mpr hstop⟩
    -- The tree ends with a token that was consumed, and the one at which the parser stands comes after it.
    obtain ⟨word, hw, heq⟩ := parsed.formed.stop_mem
    rw [parsed.words] at hw
    obtain ⟨between, h1, h2⟩ := reads.split
    rw [← Cursor.finish_ofText text label] at short
    obtain ⟨-, hlast, -⟩ := h1.span short word (List.mem_filter.mp hw).1
    obtain ⟨hnext, -⟩ := h2.span (h1.finish_eq ▸ short) after.current (List.mem_singleton_self _)
    rw [← heq]
    exact UInt32.le_iff_toNat_le.mpr (Nat.le_trans hlast hnext)

/-- The parser and `tokenize` agree about the faults of a text, in both modes. -/
theorem parse_agrees_with_tokenize (text : List Char) (label : String) (short : Utf8.size text < UInt32.size) :
    (∀ mode error, parse text label mode = .error error → error.fault.Lexical → tokenize text label = .error error) ∧
    (∀ error, tokenize text label = .error error → ∃ error', parse text label .strict = .error error' ∧
      (error' = error ∨ ¬error'.fault.Lexical ∧ error'.position.offset < error.position.offset)) ∧
    ∀ error tree, tokenize text label = .error error → parse text label .lenient = .ok tree →
      ∃ index token, (Cursor.ofText text label).nth index = .ok token ∧ token.kind ≠ .endOfText ∧
        tree.span.stop.offset ≤ token.span.start.offset ∧ token.span.stop.offset ≤ error.position.offset :=
  ⟨fun _ _ => tokenize_of_parse_error, fun _ h => parse_strict_of_tokenize_error h short,
    fun _ _ h => parse_lenient_of_tokenize_error h short⟩

theorem tokenize_unknown_character : Utf8.size ['1', ' ', '&'] < UInt32.size ∧
    tokenize ['1', ' ', '&'] "s" = .error ⟨.unknownCharacter '&', ⟨2, "s"⟩⟩ :=
  ⟨by decide, (parse_agrees_with_tokenize ['1', ' ', '&'] "s" (by decide)).1 .lenient _ (by cbv) trivial⟩

end Polish
