import Mathlib
import Polish.Proofs.Extension

/-! Texts one behind another. Unless a number goes across the seam, the tokens of two texts put together are those
    of the first without its closing one and then those of the second, which have only been moved. A fault is moved
    in the same way, or it is in the first text and stays. -/

namespace Polish

/-! ### Moving -/

/-- The place that lies so many bytes further on. -/
def Position.shift (bytes : Nat) (position : Position) : Position :=
  { position with offset := position.offset + UInt32.ofNat bytes }

/-- So many bytes further on, the offset still fits into 32 bits. -/
def Position.Fits (bytes : Nat) (position : Position) : Prop :=
  (position.shift bytes).offset.toNat = position.offset.toNat + bytes

/-- The span that lies so many bytes further on. -/
def Span.shift (bytes : Nat) (span : Span) : Span :=
  ⟨span.start.shift bytes, span.stop.shift bytes⟩

/-- The same token so many bytes further on. -/
def Token.shift (bytes : Nat) (token : Token) : Token :=
  { token with span := token.span.shift bytes }

/-- The same fault so many bytes further on. -/
def Error.shift (bytes : Nat) (error : Error) : Error :=
  { error with position := error.position.shift bytes }

theorem Position.fits_of_le {position : Position} {bytes size : Nat} (h : position.offset.toNat ≤ size)
    (short : bytes + size < UInt32.size) : position.Fits bytes := by
  have whole : (UInt32.ofNat bytes).toNat = bytes := UInt32.toNat_ofNat_of_lt' (by omega)
  rw [Fits, shift, UInt32.toNat_add, whole]
  exact Nat.mod_eq_of_lt (show position.offset.toNat + bytes < UInt32.size by omega)

namespace Cursor
variable {cursor between after : Cursor} {tokens : List Token} {last : Token} {error : Error}

/-- The cursor with the same to read, so many bytes further on. -/
def shift (bytes : Nat) (cursor : Cursor) : Cursor :=
  { cursor with offset := cursor.offset + bytes }

theorem skip_shift (cursor : Cursor) (bytes size : Nat) (rest : List Char) :
    (cursor.shift bytes).skip size rest = (cursor.skip size rest).shift bytes := by
  simp only [skip, shift, Nat.add_right_comm]

theorem position_shift (cursor : Cursor) (bytes : Nat) :
    (cursor.shift bytes).position = cursor.position.shift bytes := by
  simp only [position, shift, Position.shift, UInt32.ofNat_add]

/-- What is read does not depend on where it stands, apart from its place. -/
theorem next_shift (cursor : Cursor) (bytes : Nat) :
    (cursor.shift bytes).next =
      ((cursor.next.1.map (Token.shift bytes)).mapError (Error.shift bytes), cursor.next.2.shift bytes) := by
  have here : (cursor.shift bytes).skipBlanks = cursor.skipBlanks.shift bytes := skip_shift ..
  have rest : (cursor.skipBlanks.shift bytes).rest = cursor.skipBlanks.rest := rfl
  simp only [next, here, rest]
  cases Lexeme.first cursor.skipBlanks.rest <;> simp only [position_shift, skip_shift] <;> rfl

theorem tokens_shift (cursor : Cursor) (bytes : Nat) :
    (cursor.shift bytes).tokens =
      (cursor.tokens.map (List.map (Token.shift bytes))).mapError (Error.shift bytes) := by
  induction cursor using onward with
  | step cursor ih =>
    rw [tokens_eq, tokens_eq cursor, next_shift]
    rcases hnext : cursor.next with ⟨error | token, after⟩
    · rfl
    · have kind : (token.shift bytes).kind = token.kind := rfl
      simp only [Except.map, Except.mapError, kind]
      split
      · rfl
      · next more =>
        rw [ih token after hnext more]
        cases after.tokens <;> rfl

/-! ### Offsets within a text -/

theorem Reads.offset_le_finish (h : Reads cursor tokens after) (short : cursor.finish < UInt32.size) :
    ∀ token ∈ tokens, token.span.start.offset.toNat ≤ cursor.finish ∧ token.span.stop.offset.toNat ≤ cursor.finish := by
  induction h with
  | nil => exact nofun
  | @cons _ between _ _ _ hn _ ih =>
    have step := step_of_next hn
    obtain ⟨-, le, -, stop⟩ := step.span short
    have inside : between.offset ≤ between.finish := Nat.le_add_right _ _
    rw [step.finish] at ih inside
    have stops := stop.trans_le inside
    exact List.forall_mem_cons.mpr ⟨⟨le.trans stops, stops⟩, ih short⟩

theorem Reads.error_offset_le_finish (h : Reads cursor tokens after) (short : cursor.finish < UInt32.size)
    (hf : after.next.1 = .error error) : error.position.offset.toNat ≤ cursor.finish := by
  obtain ⟨place, -⟩ := of_next_eq_error (Prod.ext hf rfl)
  have inside : after.skipBlanks.offset ≤ after.skipBlanks.finish := Nat.le_add_right _ _
  rw [finish_skipBlanks, h.finish_eq] at inside
  rw [place, toNat_position (inside.trans_lt short)]
  exact inside

/-! ### Across the seam -/

theorem Reads.label_eq (h : Reads cursor tokens after) : after.label = cursor.label := by
  induction h with
  | nil => rfl
  | @cons cursor _ _ _ _ hn _ ih =>
    have kept := cursor.label_next
    rw [hn] at kept
    exact ih.trans kept

/-- White space at the end of one text and at the start of the next is skipped as one. -/
theorem skipBlanks_extend_of_rest_eq_nil (h : cursor.skipBlanks.rest = []) (more : List Char) :
    (cursor.extend more).skipBlanks = ((ofText more cursor.label).shift cursor.finish).skipBlanks := by
  have blank : ∀ c ∈ cursor.rest, isBlank c = true := List.dropWhile_eq_nil_iff.mp h
  have taken : (cursor.rest ++ more).takeWhile isBlank = cursor.rest ++ more.takeWhile isBlank :=
    List.takeWhile_append_of_pos blank
  have left : trimStart (cursor.rest ++ more) = trimStart more := List.dropWhile_append_of_pos blank
  simp only [skipBlanks, skip, extend, shift, ofText, finish, taken, left, Utf8.size_append, Nat.zero_add,
    Nat.add_assoc]

/-- Behind the tokens of a text, the text that follows is read as if it stood alone. -/
theorem Reads.tokens_extend (h : Reads cursor tokens between) (unended : ∀ token ∈ tokens, token.kind ≠ .endOfText)
    (hn : between.next.1 = .ok last) (hk : last.kind = .endOfText) {more : List Char}
    (parted : Parted cursor.rest more) :
    (cursor.extend more).tokens =
      ((ofText more cursor.label).shift cursor.finish).tokens.map (tokens ++ ·) := by
  have seam := skipBlanks_extend_of_rest_eq_nil (rest_skipBlanks_of_endOfText hn hk) more
  rw [h.finish_eq, h.label_eq] at seam
  rw [tokens_of_reads (h.extend unended parted).1 unended, Cursor.tokens_eq, next_eq_of_skipBlanks_eq seam,
    ← Cursor.tokens_eq]

end Cursor

/-! ### Whole texts -/

open Cursor

theorem tokenize_append_of_error {a b : List Char} {label : String} {error : Error} (parted : Parted a b)
    (h : tokenize a label = .error error) : tokenize (a ++ b) label = .error error := by
  obtain ⟨front, between, reads, unended, hf⟩ := tokens_eq_error_iff.mp h
  obtain ⟨reads, parted⟩ := reads.extend unended parted
  have next := next_extend_of_error (Prod.ext hf rfl) parted
  exact tokens_eq_error_iff.mpr ⟨front, _, reads, unended, by rw [next]⟩

theorem tokenize_append_of_ok {a b : List Char} {label : String} {tokens : List Token} (parted : Parted a b)
    (h : tokenize a label = .ok tokens) : ∃ front last, tokens = front ++ [last] ∧ last.kind = .endOfText ∧
      tokenize (a ++ b) label =
        (((tokenize b label).map (List.map (Token.shift (Utf8.size a)))).mapError (Error.shift (Utf8.size a))).map
          (front ++ ·) := by
  obtain ⟨front, last, between, rfl, reads, unended, hn, hk⟩ := tokens_eq_ok_iff.mp h
  refine ⟨front, last, rfl, hk, ?_⟩
  have seam := reads.tokens_extend unended hn hk parted
  rwa [extend_ofText, finish_ofText, tokens_shift] at seam

theorem offset_le_of_tokenize {text : List Char} (label : String) (short : Utf8.size text < UInt32.size) :
    (∀ tokens, tokenize text label = .ok tokens → ∀ token ∈ tokens,
      token.span.start.offset.toNat ≤ Utf8.size text ∧ token.span.stop.offset.toNat ≤ Utf8.size text) ∧
    ∀ error, tokenize text label = .error error → error.position.offset.toNat ≤ Utf8.size text := by
  rw [← finish_ofText text label] at short ⊢
  refine ⟨fun tokens h => ?_, fun error h => ?_⟩
  · obtain ⟨front, last, between, rfl, reads, -, hn, -⟩ := tokens_eq_ok_iff.mp h
    exact (reads.concat (Prod.ext hn rfl)).offset_le_finish short
  · obtain ⟨front, between, reads, -, hf⟩ := tokens_eq_error_iff.mp h
    exact reads.error_offset_le_finish short hf

/-- Two texts between which no number goes across have, put together, the tokens of both or the first fault of both;
    what comes from the second is moved by the size of the first, and exactly so where offsets do not wrap. -/
theorem tokenize_append (a b : List Char) (label : String) (parted : Parted a b) :
    (∀ error, tokenize a label = .error error → tokenize (a ++ b) label = .error error) ∧
    (∀ tokens, tokenize a label = .ok tokens → ∃ front last, tokens = front ++ [last] ∧ last.kind = .endOfText ∧
      (∀ more, tokenize b label = .ok more →
        tokenize (a ++ b) label = .ok (front ++ more.map (Token.shift (Utf8.size a)))) ∧
      ∀ error, tokenize b label = .error error →
        tokenize (a ++ b) label = .error (error.shift (Utf8.size a))) ∧
    (Utf8.size (a ++ b) < UInt32.size →
      (∀ more, tokenize b label = .ok more → ∀ token ∈ more,
        token.span.start.Fits (Utf8.size a) ∧ token.span.stop.Fits (Utf8.size a)) ∧
      ∀ error, tokenize b label = .error error → error.position.Fits (Utf8.size a)) := by
  refine ⟨fun error => tokenize_append_of_error parted, fun tokens h => ?_, fun short => ?_⟩
  · obtain ⟨front, last, rfl, hk, seam⟩ := tokenize_append_of_ok (b := b) parted h
    refine ⟨front, last, rfl, hk, fun more h => ?_, fun error h => ?_⟩
    · rw [seam, h]
      rfl
    · rw [seam, h]
      rfl
  · rw [Utf8.size_append] at short
    have short' : Utf8.size b < UInt32.size := by omega
    obtain ⟨inside, before⟩ := offset_le_of_tokenize label short'
    refine ⟨fun more h token ht => ?_, fun error h => Position.fits_of_le (before error h) short⟩
    obtain ⟨start, stop⟩ := inside more h token ht
    exact ⟨Position.fits_of_le start short, Position.fits_of_le stop short⟩

/-- White space on both sides of the seam is skipped as one, and a fault behind it is moved by three bytes. -/
theorem tokenize_append_between_blanks : Parted ['1', '2', ' '] ['\u3000', '3'] ∧
    tokenize (['1', '2', ' '] ++ ['\u3000', '3']) "s" =
      .ok [⟨.integer, .integer 12, ⟨⟨0, "s"⟩, ⟨2, "s"⟩⟩⟩, ⟨.integer, .integer 3, ⟨⟨6, "s"⟩, ⟨7, "s"⟩⟩⟩,
        ⟨.endOfText, .none, ⟨⟨7, "s"⟩, ⟨7, "s"⟩⟩⟩] ∧
    tokenize (['1', '2', ' '] ++ [' ', '&']) "s" = .error ⟨.unknownCharacter '&', ⟨4, "s"⟩⟩ ∧
    Position.Fits 3 ⟨1, "s"⟩ := by
  have parted (b : List Char) : Parted (['1', '2'] ++ [' ']) b := parted_concat rfl
  have first : tokenize ['1', '2', ' '] "s" =
      .ok ([⟨.integer, .integer 12, ⟨⟨0, "s"⟩, ⟨2, "s"⟩⟩⟩] ++ [⟨.endOfText, .none, ⟨⟨3, "s"⟩, ⟨3, "s"⟩⟩⟩]) := by cbv
  have unknown : tokenize [' ', '&'] "s" = .error ⟨.unknownCharacter '&', ⟨1, "s"⟩⟩ := by cbv
  refine ⟨parted _, ?_, ?_⟩
  · obtain ⟨front, last, split, -, both, -⟩ := (tokenize_append _ ['\u3000', '3'] "s" (parted _)).2.1 _ first
    obtain ⟨rfl, -⟩ := List.append_inj' split rfl
    exact both [⟨.integer, .integer 3, ⟨⟨3, "s"⟩, ⟨4, "s"⟩⟩⟩, ⟨.endOfText, .none, ⟨⟨4, "s"⟩, ⟨4, "s"⟩⟩⟩] (by cbv)
  · obtain ⟨-, moved, fits⟩ := tokenize_append _ [' ', '&'] "s" (parted _)
    obtain ⟨front, last, -, -, -, fault⟩ := moved _ first
    exact ⟨fault _ unknown, (fits (by decide)).2 _ unknown⟩

end Polish
