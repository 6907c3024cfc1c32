import Mathlib
import Polish.Proofs.Concatenation
import Polish.Reader

/-! Readers that are moved ahead between their readings. A jump may end anywhere, so also inside a character, where
    nothing can be read, or inside a run of digits. From every other place a reader reads what it would read if the
    text began there. -/

namespace Polish

/-! ### Places -/

/-- The place is before a character of the text or at its end. -/
def Boundary (text : List Char) (offset : Nat) : Prop :=
  ∃ before rest, text = before ++ rest ∧ Utf8.size before = offset

/-- Some bytes of a character are before the place and some behind it. -/
def InCharacter (text : List Char) (offset : Nat) : Prop :=
  ∃ before c after, text = before ++ c :: after ∧ Utf8.size before < offset ∧ offset < Utf8.size before + c.utf8Size

variable {text : List Char} {label : String} {offset : Nat}

theorem Utf8.drop?_eq_some_iff {rest : List Char} :
    Utf8.drop? offset text = some rest ↔ ∃ before, text = before ++ rest ∧ Utf8.size before = offset := by
  constructor
  · intro h
    fun_induction Utf8.drop? offset text with
    | case1 text =>
      cases h
      exact ⟨[], rfl, rfl⟩
    | case2 => cases h
    | case3 bytes c text fits ih =>
      obtain ⟨before, rfl, size⟩ := ih h
      exact ⟨c :: before, rfl, by rw [size_cons, size]; omega⟩
    | case4 => cases h
  · rintro ⟨before, rfl, rfl⟩
    exact Utf8.drop?_size_append before rest

theorem Utf8.inCharacter_of_drop? (h : Utf8.drop? offset text = none) (inside : offset ≤ Utf8.size text) :
    InCharacter text offset := by
  fun_induction Utf8.drop? offset text with
  | case1 => cases h
  | case2 => cases inside
  | case3 bytes c text fits ih =>
    rw [size_cons] at inside
    obtain ⟨before, d, after, rfl, low, high⟩ := ih h (by omega)
    exact ⟨c :: before, d, after, rfl, by rw [size_cons]; omega, by rw [size_cons]; omega⟩
  | case4 bytes c text fits => exact ⟨[], c, text, rfl, Nat.succ_pos _, by rw [size_nil]; omega⟩

theorem Boundary.not_inCharacter (h : Boundary text offset) : ¬InCharacter text offset := by
  rintro ⟨before, c, after, split, low, high⟩
  obtain ⟨front, rest, whole, rfl⟩ := h
  rw [whole] at split
  -- The text is split in two ways: the place is not behind the start of the character, or not before its end.
  rcases List.append_eq_append_iff.mp split with ⟨more, rfl, -⟩ | ⟨more, rfl, heq⟩
  · rw [Utf8.size_append] at low
    omega
  · cases more with
    | nil => simp at low
    | cons d more =>
      cases heq
      simp only [Utf8.size_append, Utf8.size_cons] at high
      omega

namespace Cursor

/-- Nothing of the text is lost when the next token is read, or tried to be read. -/
theorem finish_next (cursor : Cursor) : cursor.next.2.finish = cursor.finish := by
  rcases hn : cursor.next with ⟨error | token, after⟩
  · obtain ⟨-, rfl, -⟩ := of_next_eq_error hn
    exact cursor.finish_skipBlanks
  · exact (step_of_next hn).finish

theorem offset_le_next (cursor : Cursor) : cursor.offset ≤ cursor.next.2.offset := by
  rcases hn : cursor.next with ⟨error | token, after⟩
  · obtain ⟨-, rfl, -⟩ := of_next_eq_error hn
    exact cursor.offset_le_skipBlanks
  · exact (step_of_next hn).offset_le

/-- What ends the reading of a text is read again and again. -/
theorem next_next_of_ended {cursor : Cursor} (h : ∀ token, cursor.next.1 = .ok token → token.kind = .endOfText) :
    cursor.next.2.next = cursor.next := by
  rcases hn : cursor.next with ⟨error | token, after⟩
  · obtain ⟨-, rfl, -⟩ := of_next_eq_error hn
    exact (next_eq_of_skipBlanks_eq cursor.skipBlanks_skipBlanks).trans hn
  · exact next_of_endOfText hn (h token (by rw [hn]))

end Cursor

namespace Reader
variable {reader : Reader} {cursor : Cursor}

/-! ### Readers and cursors -/

theorem cursor?_eq_some_iff : reader.cursor? = some cursor ↔
    cursor.offset = reader.offset ∧ cursor.label = reader.label ∧
      ∃ before, reader.text = before ++ cursor.rest ∧ Utf8.size before = reader.offset := by
  rw [← Utf8.drop?_eq_some_iff, cursor?, rest?, Option.map_eq_some_iff]
  constructor
  · rintro ⟨rest, drop, rfl⟩
    exact ⟨rfl, rfl, drop⟩
  · obtain ⟨offset, rest, label⟩ := cursor
    rintro ⟨rfl, rfl, drop⟩
    exact ⟨rest, drop, rfl⟩

theorem next_of_cursor? (h : reader.cursor? = some cursor) :
    reader.next = (some cursor.next.1, { reader with offset := cursor.next.2.offset }) := by
  simp only [next, h]

theorem next_of_cursor?_eq_none (h : reader.cursor? = none) : reader.next = (none, reader) := by
  simp only [next, h]

/-- What is read leaves the reader between two characters, where the cursor is left. -/
theorem cursor?_next (h : reader.cursor? = some cursor) : reader.next.2.cursor? = some cursor.next.2 := by
  obtain ⟨place, label, before, split, size⟩ := cursor?_eq_some_iff.mp h
  obtain ⟨front, suffix⟩ := cursor.suffix_next
  have finish := cursor.finish_next
  rw [Cursor.finish, Cursor.finish, ← suffix, Utf8.size_append] at finish
  rw [next_of_cursor? h]
  refine cursor?_eq_some_iff.mpr ⟨rfl, cursor.label_next.trans label, before ++ front, ?_, ?_⟩
  · rw [split, ← suffix, List.append_assoc]
  · rw [Utf8.size_append, size]
    show reader.offset + Utf8.size front = cursor.next.2.offset
    omega

end Reader

/-! ### Moves -/

/-- What moves a reader. -/
inductive Move
  | next
  | advance (bytes : Nat)

namespace Reader
variable {reader : Reader} {cursor : Cursor} {result : Except Error Token}

/-- The reader after one move, whatever it comes to. -/
def move (reader : Reader) : Move → Reader
  | .next => reader.next.2
  | .advance bytes => reader.advance bytes

/-- The reader after moves that are made one after another, whatever each of them comes to. -/
def moved (reader : Reader) (moves : List Move) : Reader :=
  moves.foldl move reader

/-- The reader is somewhere in the text. -/
structure Over (reader : Reader) (text : List Char) (label : String) : Prop where
  text_eq : reader.text = text
  label_eq : reader.label = label
  offset_le : reader.offset ≤ Utf8.size text

namespace Over

theorem ofText (text : List Char) (label : String) : (ofText text label).Over text label :=
  ⟨rfl, rfl, Nat.zero_le _⟩

/-- A reader is inside a character, or it reads as a cursor does that has come as far. -/
theorem cases (h : reader.Over text label) :
    (reader.cursor? = none ∧ InCharacter text reader.offset) ∨
      ∃ before rest, text = before ++ rest ∧ Utf8.size before = reader.offset ∧
        reader.cursor? = some ⟨Utf8.size before, rest, label⟩ := by
  obtain ⟨rfl, rfl, inside⟩ := h
  rcases hr : reader.rest? with _ | rest
  · exact Or.inl ⟨by rw [cursor?, hr]; rfl, Utf8.inCharacter_of_drop? hr inside⟩
  · obtain ⟨before, split, size⟩ := Utf8.drop?_eq_some_iff.mp hr
    exact Or.inr ⟨before, rest, split, size, by rw [cursor?, hr, size]; rfl⟩

theorem move (h : reader.Over text label) (move : Move) :
    (reader.move move).Over text label ∧ reader.offset ≤ (reader.move move).offset := by
  have inside := h.offset_le
  cases move with
  | advance bytes =>
    refine ⟨⟨h.text_eq, h.label_eq, ?_⟩, ?_⟩ <;> simp only [Reader.move, advance, h.text_eq]
    · exact Nat.min_le_right _ _
    · omega
  | next =>
    rw [Reader.move]
    rcases h.cases with ⟨nowhere, -⟩ | ⟨before, rest, split, size, here⟩
    · rw [next_of_cursor?_eq_none nowhere]
      exact ⟨h, Nat.le_refl _⟩
    · -- A reading takes from what is left of the text, so it does not go beyond the end.
      have finish := Cursor.finish_next ⟨Utf8.size before, rest, label⟩
      have onward := Cursor.offset_le_next ⟨Utf8.size before, rest, label⟩
      have whole : Cursor.finish ⟨Utf8.size before, rest, label⟩ = Utf8.size text := by
        rw [split, Utf8.size_append]
        rfl
      rw [next_of_cursor? here]
      refine ⟨⟨h.text_eq, h.label_eq, ?_⟩, size ▸ onward⟩
      exact whole ▸ finish ▸ Nat.le_add_right _ _

theorem moved (h : reader.Over text label) (moves : List Move) :
    (reader.moved moves).Over text label ∧ reader.offset ≤ (reader.moved moves).offset := by
  induction moves generalizing reader with
  | nil => exact ⟨h, Nat.le_refl _⟩
  | cons move moves ih =>
    obtain ⟨next, le⟩ := h.move move
    obtain ⟨last, le'⟩ := ih next
    exact ⟨last, le.trans le'⟩

end Over

/-- If a reader only reads, it never comes to be inside a character. -/
theorem exists_cursor_of_readings {moves : List Move} (h : reader.cursor? = some cursor)
    (only : ∀ move ∈ moves, move = .next) : ∃ cursor, (reader.moved moves).cursor? = some cursor := by
  induction moves generalizing reader cursor with
  | nil => exact ⟨cursor, h⟩
  | cons move moves ih =>
    obtain ⟨rfl, others⟩ := List.forall_mem_cons.mp only
    exact ih (cursor?_next h) others

/-- After the closing token or a fault, further readings give the same and leave the reader where it is. -/
theorem next_of_ended (h : reader.next.1 = some result) (ended : ∀ token, result = .ok token → token.kind = .endOfText)
    (count : Nat) : (reader.next.2.moved (List.replicate count .next)).next = (some result, reader.next.2) := by
  obtain ⟨cursor, here⟩ : ∃ cursor, reader.cursor? = some cursor := by
    rcases hc : reader.cursor? with _ | cursor
    · rw [next_of_cursor?_eq_none hc] at h
      cases h
    · exact ⟨cursor, rfl⟩
  have read : cursor.next.1 = result := by
    rw [next_of_cursor? here] at h
    exact Option.some.inj h
  have again : reader.next.2.next = (some result, reader.next.2) := by
    rw [next_of_cursor? (cursor?_next here), Cursor.next_next_of_ended fun token ht => ended token (read ▸ ht), read,
      next_of_cursor? here]
  have kept : reader.next.2.moved (List.replicate count .next) = reader.next.2 := by
    induction count with
    | zero => rfl
    | succ count ih =>
      rw [List.replicate_succ, Reader.moved, List.foldl_cons, Reader.move, again]
      exact ih
  rw [kept, again]

/-! ### What a reading comes to -/

/-- The reading of what follows the first `bytes` bytes, as it is if the text begins behind them. -/
structure Fresh (reader : Reader) (bytes : Nat) (fresh : Reader) : Prop where
  result : reader.next.1 =
    fresh.next.1.map fun result => (result.map (Token.shift bytes)).mapError (Error.shift bytes)
  offset : reader.next.2.offset = bytes + fresh.next.2.offset
  tokens : ∀ token, fresh.next.1 = some (.ok token) → token.span.start.Fits bytes ∧ token.span.stop.Fits bytes
  errors : ∀ error, fresh.next.1 = some (.error error) → error.position.Fits bytes

theorem next_ofText (rest : List Char) (label : String) :
    (ofText rest label).next =
      (some (Cursor.ofText rest label).next.1,
        { ofText rest label with offset := (Cursor.ofText rest label).next.2.offset }) :=
  next_of_cursor? (cursor?_eq_some_iff.mpr ⟨rfl, rfl, [], rfl, rfl⟩)

theorem fresh_of_cursor? {rest : List Char} {bytes : Nat} (short : bytes + Utf8.size rest < UInt32.size)
    (h : reader.cursor? = some ⟨bytes, rest, label⟩) : reader.Fresh bytes (ofText rest label) := by
  have moved : (Cursor.ofText rest label).shift bytes = ⟨bytes, rest, label⟩ := by
    rw [Cursor.shift, Cursor.ofText, Nat.zero_add]
  rw [← moved] at h
  have short' : (Cursor.ofText rest label).finish < UInt32.size := by
    rw [Cursor.finish_ofText]
    omega
  rw [← Cursor.finish_ofText rest label] at short
  refine ⟨?_, ?_, fun token ht => ?_, fun error he => ?_⟩
  · rw [next_of_cursor? h, next_ofText, Cursor.next_shift]
    rfl
  · rw [next_of_cursor? h, next_ofText, Cursor.next_shift]
    exact Nat.add_comm _ _
  · rw [next_ofText] at ht
    have reads : (Cursor.ofText rest label).Reads [token] (Cursor.ofText rest label).next.2 :=
      .cons (Prod.ext (Option.some.inj ht) rfl) .nil
    obtain ⟨start, stop⟩ := reads.offset_le_finish short' token (List.mem_singleton_self _)
    exact ⟨Position.fits_of_le start short, Position.fits_of_le stop short⟩
  · rw [next_ofText] at he
    exact Position.fits_of_le (Cursor.Reads.nil.error_offset_le_finish short' (Option.some.inj he)) short

/-- A reader that is somewhere in a text, and what reading on from there comes to. -/
structure Reliable (reader : Reader) (text : List Char) (label : String) : Prop where
  offset_le : reader.offset ≤ Utf8.size text
  onward : ∀ moves, reader.offset ≤ (reader.moved moves).offset
  unread_iff : reader.next.1 = none ↔ InCharacter text reader.offset
  fresh : ¬InCharacter text reader.offset → ∃ before rest, text = before ++ rest ∧
    Utf8.size before = reader.offset ∧ reader.Fresh (Utf8.size before) (ofText rest label)
  token : ∀ token, reader.next.1 = some (.ok token) → token.kind ≠ .endOfText →
    reader.offset < reader.next.2.offset ∧ token.span.stop.offset.toNat = reader.next.2.offset ∧
      Boundary text reader.next.2.offset
  again : ∀ result, reader.next.1 = some result → (∀ token, result = .ok token → token.kind = .endOfText) →
    ∀ count, (reader.next.2.moved (List.replicate count .next)).next = (some result, reader.next.2)

theorem Over.token (h : reader.Over text label) (short : Utf8.size text < UInt32.size) {token : Token}
    (ht : reader.next.1 = some (.ok token)) (more : token.kind ≠ .endOfText) :
    reader.offset < reader.next.2.offset ∧ token.span.stop.offset.toNat = reader.next.2.offset ∧
      Boundary text reader.next.2.offset := by
  rcases h.cases with ⟨nowhere, -⟩ | ⟨front, rest, whole, size, here⟩
  · rw [next_of_cursor?_eq_none nowhere] at ht
    cases ht
  · obtain ⟨-, -, before, split, place⟩ := cursor?_eq_some_iff.mp (cursor?_next here)
    have text_eq : reader.next.2.text = text := (h.move .next).1.text_eq
    refine and_assoc.mp ⟨?_, before, _, text_eq ▸ split, place⟩
    have finish : Cursor.finish ⟨Utf8.size front, rest, label⟩ = Utf8.size text := by
      rw [whole, Utf8.size_append]
      rfl
    rw [next_of_cursor? here] at ht ⊢
    have step := Cursor.step_of_next (Prod.ext (Option.some.inj ht) rfl)
    obtain ⟨-, -, -, stop⟩ := step.span (finish ▸ short)
    exact ⟨size ▸ (Cursor.offset_le_skipBlanks _).trans_lt (step.lt more), stop⟩

theorem Over.reliable (h : reader.Over text label) (short : Utf8.size text < UInt32.size) :
    reader.Reliable text label where
  offset_le := h.offset_le
  onward moves := (h.moved moves).2
  unread_iff := by
    rcases h.cases with ⟨nowhere, inside⟩ | ⟨before, rest, split, size, here⟩
    · rw [next_of_cursor?_eq_none nowhere]
      exact iff_of_true rfl inside
    · have outside := Boundary.not_inCharacter ⟨before, rest, split, size⟩
      rw [next_of_cursor? here]
      exact iff_of_false nofun outside
  fresh outside := by
    rcases h.cases with ⟨-, inside⟩ | ⟨before, rest, split, size, here⟩
    · exact absurd inside outside
    · rw [split, Utf8.size_append] at short
      exact ⟨before, rest, split, size, fresh_of_cursor? short here⟩
  token _ := h.token short
  again _ := next_of_ended

end Reader

/-- However a reader is moved, it goes on in its text, and what it reads depends on nothing but what is left of the
    text. It can only fail to read where a jump has taken it into a character. -/
theorem jumps_are_reliable (text : List Char) (label : String) (short : Utf8.size text < UInt32.size)
    (moves : List Move) :
    ((Reader.ofText text label).moved moves).Reliable text label ∧
      ((∀ move ∈ moves, move = .next) → ¬InCharacter text ((Reader.ofText text label).moved moves).offset) := by
  have reached := (Reader.Over.ofText text label).moved moves
  refine ⟨reached.1.reliable short, fun only inside => ?_⟩
  have start : (Reader.ofText text label).cursor? = some (Cursor.ofText text label) :=
    Reader.cursor?_eq_some_iff.mpr ⟨rfl, rfl, [], rfl, rfl⟩
  obtain ⟨cursor, here⟩ := Reader.exists_cursor_of_readings start only
  rw [← (reached.1.reliable short).unread_iff, Reader.next_of_cursor? here] at inside
  cases inside

/-- The first jump ends inside a character, where nothing is read, and the next one between two digits. -/
theorem jumps_are_reliable_between_digits : Utf8.size ['é', '1', '2', '3'] < UInt32.size ∧
    ((Reader.ofText ['é', '1', '2', '3'] "s").moved [.advance 1]).next.1 = none ∧
    ∃ before rest, ['é', '1', '2', '3'] = before ++ rest ∧ Utf8.size before = 3 ∧
      ((Reader.ofText ['é', '1', '2', '3'] "s").moved [.advance 1, .next, .advance 2]).Fresh (Utf8.size before)
        (.ofText rest "s") := by
  have short : Utf8.size ['é', '1', '2', '3'] < UInt32.size := by decide
  have unread := (jumps_are_reliable ['é', '1', '2', '3'] "s" short [.advance 1]).1.unread_iff
  have fresh := (jumps_are_reliable ['é', '1', '2', '3'] "s" short [.advance 1, .next, .advance 2]).1.fresh
  have place : ((Reader.ofText ['é', '1', '2', '3'] "s").moved [.advance 1, .next, .advance 2]).offset = 3 := by cbv
  rw [place] at fresh
  refine ⟨short, unread.mpr ⟨[], 'é', _, rfl, by decide, by decide⟩, fresh (Boundary.not_inCharacter ?_)⟩
  exact ⟨['é', '1'], ['2', '3'], rfl, by decide⟩

end Polish
