import Mathlib
import Polish.Proofs.Acceptance
import Polish.Proofs.Decoding
import Polish.Proofs.Extension
import Polish.Proofs.Independence

/-! Lines of bytes that are no text. Such a line has a replacement character, which begins no token, so a strict
    session always refuses it. A lenient one does not read on behind the first token that it leaves over, and it
    renders the line if such a token stands in front of the replacement. -/

namespace Polish
open Utf8 (replacement)

/-! ### Reading up to a replacement -/

theorem offence_replacement (before back : List Char) :
    Offence before (replacement :: back) (.unknownCharacter replacement) :=
  .character (by decide) (by decide) (Kind.ofSymbol?_eq_none_iff.mp rfl)

theorem parted_replacement (before back : List Char) : Parted before (replacement :: back) := by
  intro _ d _ hd _
  cases hd
  rfl

namespace Cursor

variable {cursor after : Cursor} {tokens : List Token} {token : Token} {back : List Char}

/-- In front of a replacement the end of the text is not read. -/
theorem next_of_extend (h : (cursor.extend (replacement :: back)).next = (.ok token, after)) :
    token.kind ≠ .endOfText ∧ ∃ here, cursor.next = (.ok token, here) ∧ after = here.extend (replacement :: back) := by
  by_cases ended : cursor.skipBlanks.rest = []
  · -- All that is left is white space, so the replacement is what is read.
    have blank : ∀ c ∈ cursor.rest, isBlank c = true := List.dropWhile_eq_nil_iff.mp ended
    have here : (cursor.extend (replacement :: back)).skipBlanks.rest = replacement :: back :=
      List.dropWhile_append_of_pos blank
    have first : Lexeme.first (replacement :: back) = .fault (.unknownCharacter replacement) := rfl
    simp only [next, here, first] at h
    cases h
  · have unended (token : Token) (hn : cursor.next.1 = .ok token) : token.kind ≠ .endOfText :=
      fun hk => ended (rest_skipBlanks_of_endOfText hn hk)
    rw [cursor.next_extend (parted_replacement _ _) unended] at h
    obtain ⟨hn, rfl⟩ := Prod.mk.inj h
    exact ⟨unended token hn, _, Prod.ext hn rfl, rfl⟩

theorem Reads.of_extend (h : (cursor.extend (replacement :: back)).Reads tokens after) :
    (∀ token ∈ tokens, token.kind ≠ .endOfText) ∧ ∃ here, cursor.Reads tokens here := by
  generalize hc : cursor.extend (replacement :: back) = whole at h
  induction h generalizing cursor with
  | nil => exact ⟨nofun, cursor, .nil⟩
  | cons hn _ ih =>
    subst hc
    obtain ⟨first, here, hn', rfl⟩ := next_of_extend hn
    obtain ⟨more, last, reads⟩ := ih rfl
    exact ⟨List.forall_mem_cons.mpr ⟨first, more⟩, last, .cons hn' reads⟩

end Cursor

/-! ### Formulas in front of a replacement -/

section
open Session
variable {front back : List Char} {label : String} {mode : Mode} {index : Nat} {shape : Shape}

/-- A formula stops in front of a replacement where it stops without it, but not at the end of the text. -/
theorem stopsAt_append_replacement_iff :
    StopsAt (front ++ replacement :: back) label index shape ↔
      StopsAt front label index shape ∧
        ∃ token, (Cursor.ofText front label).nth index = .ok token ∧ token.kind ≠ .endOfText := by
  rw [stopsAt_iff, stopsAt_iff, ← Cursor.extend_ofText]
  constructor
  · rintro ⟨tokens, stop, cursor, rfl, hr, h⟩
    obtain ⟨unended, here, hr⟩ := hr.of_extend
    obtain ⟨-, hn, -⟩ := Cursor.reads_concat_iff.mp hr
    exact ⟨⟨tokens, stop, here, rfl, hr, h⟩, stop, hn, unended stop List.mem_concat_self⟩
  · rintro ⟨⟨tokens, stop, cursor, rfl, hr, ends, hd, limits⟩, token, hn, more⟩
    obtain ⟨-, hn', -⟩ := Cursor.reads_concat_iff.mp hr
    rw [hn'] at hn
    cases hn
    have unended : ∀ token ∈ tokens ++ [stop], token.kind ≠ .endOfText :=
      List.forall_mem_append.mpr ⟨(hd.steps 0).kind_ne, List.forall_mem_singleton.mpr more⟩
    exact ⟨tokens, stop, _, rfl, (hr.extend unended (parted_replacement _ back)).1, ends, hd, limits⟩

/-- Behind a formula at the front of the text a token is left over, which is no operator. -/
def LeavesOver (text : List Char) (label : String) : Prop :=
  ∃ index shape token, StopsAt text label index shape ∧ (Cursor.ofText text label).nth index = .ok token ∧
    token.kind ≠ .endOfText

theorem lenient_ok_of_replacement_iff :
    (∃ tree, parse (front ++ replacement :: back) label .lenient = .ok tree) ↔ LeavesOver front label := by
  constructor
  · rintro ⟨tree, h⟩
    obtain ⟨index, stops⟩ := lenient_ok_iff.mp ⟨tree, h, rfl⟩
    obtain ⟨stops, token, hn, more⟩ := stopsAt_append_replacement_iff.mp stops
    exact ⟨index, _, token, stops, hn, more⟩
  · rintro ⟨index, shape, token, stops, hn, more⟩
    obtain ⟨tree, h, -⟩ := lenient_ok_iff.mpr ⟨index, stopsAt_append_replacement_iff.mpr ⟨stops, token, hn, more⟩⟩
    exact ⟨tree, h⟩

theorem strict_refuses_replacement (tree : Tree) :
    parse (front ++ replacement :: back) label .strict ≠ .ok tree := by
  intro h
  obtain ⟨tokens, stop, cursor, hr, -, hm, -⟩ := derives_of_parse h
  rw [← Cursor.extend_ofText] at hr
  obtain ⟨unended, -⟩ := hr.of_extend
  exact unended stop List.mem_concat_self (hm rfl)

/-- A text with a replacement is rendered in one case only. -/
theorem evaluate_ok_of_replacement_iff :
    (∃ rendered, evaluate (front ++ replacement :: back) label mode = .ok rendered) ↔
      mode = .lenient ∧ LeavesOver front label := by
  have rendered : (∃ rendered, evaluate (front ++ replacement :: back) label mode = .ok rendered) ↔
      ∃ tree, parse (front ++ replacement :: back) label mode = .ok tree := by
    rw [evaluate_eq_map_parse]
    cases parse (front ++ replacement :: back) label mode <;> simp [Except.map]
  rw [rendered]
  cases mode with
  | strict =>
    refine iff_of_false (fun h => ?_) nofun
    obtain ⟨tree, h⟩ := h
    exact strict_refuses_replacement tree h
  | lenient => exact lenient_ok_of_replacement_iff.trans (and_iff_right rfl).symm

end

/-! ### Lines -/

theorem replacement_mem_lineText {line : List UInt8} (invalid : ¬Utf8.Valid line) : replacement ∈ lineText line := by
  obtain ⟨before, after, split⟩ := List.append_of_mem (Utf8.replacement_mem_decode invalid)
  rw [lineText, split, dropEndWhile_append_cons (by decide)]
  exact List.mem_append_right _ List.mem_cons_self

namespace Session
variable {options : Options} {front back : List Char}

/-- The tokens of a text with a replacement are never listed, so all that it gets is its reply. -/
theorem block_of_replacement (line : List Char) (split : line = front ++ replacement :: back) :
    block options line = Stream.out.bytes options.prompt ++ reply options line := by
  have offends : Offends line (Utf8.size front) (.unknownCharacter replacement) :=
    ⟨front, _, split, rfl, offence_replacement front back⟩
  obtain ⟨error, unread⟩ : ∃ error, tokenize line options.label = .error error :=
    tokenize_fails_iff.mpr ⟨_, _, offends⟩
  have listing : listing options line = [] := by
    rw [Session.listing, unread]
    cases options.tokens <;> rfl
  rw [block, unread, listing]
  rfl

end Session

open Session

/-- A line that is no text is rendered if the mode is lenient and a token is left over in front of its first
    replacement, and every other such line has a diagnostic and nothing else. -/
theorem invalid_line_is_rendered_iff (options : Options) (input : Input)
    (drawable : ∀ line ∈ input.lines, Drawable options (lineText line)) :
    written options input =
      input.lines.flatMap (fun line => block options (lineText line)) ++ farewell options input ∧
    ∀ line ∈ input.lines, ¬Utf8.Valid line →
      ∃ front back, lineText line = front ++ replacement :: back ∧ replacement ∉ front ∧
        ((options.mode = .lenient ∧ LeavesOver front options.label) ∧
            (∃ rendered, evaluate (lineText line) options.label options.mode = .ok rendered ∧
              block options (lineText line) = Stream.out.bytes options.prompt ++ Stream.out.line rendered) ∨
          ¬(options.mode = .lenient ∧ LeavesOver front options.label) ∧
            ∃ error diagnostic, evaluate (lineText line) options.label options.mode = .error error ∧
              error.diagnostic? (lineText line) = some diagnostic ∧
              block options (lineText line) =
                Stream.out.bytes options.prompt ++ Stream.err.line diagnostic) := by
  refine ⟨written_eq drawable, fun line hl invalid => ?_⟩
  obtain ⟨front, back, split, first⟩ := List.eq_append_cons_of_mem (replacement_mem_lineText invalid)
  have ok_iff : (∃ rendered, evaluate (lineText line) options.label options.mode = .ok rendered) ↔
      options.mode = .lenient ∧ LeavesOver front options.label := split ▸ evaluate_ok_of_replacement_iff
  refine ⟨front, back, split, first, ?_⟩
  rw [← ok_iff, block_of_replacement _ split]
  rcases reply_of_drawable (drawable line hl) with ⟨rendered, he, hr⟩ | ⟨error, diagnostic, he, hdiag, hr⟩
  · exact Or.inl ⟨⟨rendered, he⟩, rendered, he, by rw [hr]⟩
  · refine Or.inr ⟨fun ok => ?_, error, diagnostic, he, hdiag, by rw [hr]⟩
    obtain ⟨rendered, ok⟩ := ok
    rw [he] at ok
    cases ok

/-- A strict session has a diagnostic for a line that ends in a byte which is no text, though an integer is in front. -/
theorem invalid_line_in_strict_session :
    (∀ line ∈ (Input.mk [0x31, 0x20, 0x32, 0x20, 0xFF, 0x0A] false).lines,
      Drawable ⟨true, false, "> ", "s"⟩ (lineText line)) ∧
    ∀ line ∈ (Input.mk [0x31, 0x20, 0x32, 0x20, 0xFF, 0x0A] false).lines, ¬Utf8.Valid line →
      ∃ diagnostic, block ⟨true, false, "> ", "s"⟩ (lineText line) =
        Stream.out.bytes "> " ++ Stream.err.line diagnostic := by
  have drawable : ∀ line ∈ (Input.mk [0x31, 0x20, 0x32, 0x20, 0xFF, 0x0A] false).lines,
      Drawable ⟨true, false, "> ", "s"⟩ (lineText line) := by
    intro line hl
    apply drawable_of_lt
    revert line
    decide
  refine ⟨drawable, fun line hl invalid => ?_⟩
  obtain ⟨-, lines⟩ := invalid_line_is_rendered_iff ⟨true, false, "> ", "s"⟩ _ drawable
  obtain ⟨_, _, -, -, ⟨⟨mode, -⟩, -⟩ | ⟨-, _, diagnostic, -, -, hb⟩⟩ := lines line hl invalid
  · cases mode
  · exact ⟨diagnostic, hb⟩

/-- Behind two integers there is a byte that is no text, and it is never met. -/
theorem invalid_line_is_rendered :
    ∃ line, (Input.mk [0x31, 0x20, 0x32, 0x20, 0xFF, 0x0A] false).lines = [line] ∧ ¬Utf8.Valid line ∧
      Drawable ⟨false, false, "calc> ", "shell"⟩ (lineText line) ∧
      written ⟨false, false, "calc> ", "shell"⟩ ⟨[0x31, 0x20, 0x32, 0x20, 0xFF, 0x0A], false⟩ =
        Stream.out.bytes "calc> " ++ Stream.out.line "1" ++ (Stream.out.bytes "calc> " ++ Stream.out.bytes "\n") := by
  refine ⟨[0x31, 0x20, 0x32, 0x20, 0xFF], rfl, ?_, drawable_of_lt (by decide), by cbv⟩
  rintro ⟨text, encoded⟩
  have high : (0xFF : UInt8) ∈ Utf8.encode text := by
    rw [encoded]
    decide
  exact absurd (Utf8.lt_of_mem_encode high) (by decide)

end Polish
