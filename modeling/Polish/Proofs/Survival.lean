import Mathlib
import Polish.Proofs.Independence
import Polish.Proofs.Whole
import Polish.Reader

/-! How far a session comes. Reading tokens and parsing never stand inside a character, and on unlimited streams
    the one thing that can end a session before its last line is a caret too far to the right, for which the line
    has to be long. -/

namespace Polish

/-! ### Reading -/

namespace Reader

/-- The reader after so many tokens have been read, or tried to be read. -/
def after (reader : Reader) : Nat → Reader
  | 0 => reader
  | count + 1 => reader.next.2.after count

/-- The reader stands where the cursor does. -/
structure Follows (reader : Reader) (cursor : Cursor) : Prop where
  stands : ∃ before, cursor.Stands reader.text before
  offset : reader.offset = cursor.offset
  label : reader.label = cursor.label

theorem follows_ofText (text : List Char) (label : String) : (ofText text label).Follows (.ofText text label) :=
  ⟨⟨[], Cursor.stands_ofText text label⟩, rfl, rfl⟩

variable {reader : Reader} {cursor : Cursor}

theorem Follows.next (h : reader.Follows cursor) :
    reader.next.1 = some cursor.next.1 ∧ reader.next.2.Follows cursor.next.2 := by
  obtain ⟨⟨before, stands⟩, offset, label⟩ := h
  have rest : reader.rest? = some cursor.rest := by
    have := Utf8.drop?_size_append before cursor.rest
    rwa [← stands.split, ← stands.offset, ← offset] at this
  have here : reader.cursor? = some cursor := by
    rw [cursor?, rest, offset, label]
    rfl
  simp only [Reader.next, here]
  exact ⟨trivial, stands.next, rfl, label.trans cursor.label_next.symm⟩

theorem Follows.after (h : reader.Follows cursor) (count : Nat) :
    (reader.after count).Follows (cursor.after count) := by
  induction count generalizing reader cursor with
  | zero => exact h
  | succ count ih => exact ih h.next.2

/-- A reader that only reads tokens reads the stream of the text, and it never stands inside a character. -/
theorem next_after_ofText (text : List Char) (label : String) (count : Nat) :
    ((ofText text label).after count).next.1 = some ((Cursor.ofText text label).nth count) :=
  ((follows_ofText text label).after count).next.1

end Reader

/-! ### Lines that cannot be answered -/

section
open ParseM

theorem parse_of_misread {text : List Char} {label : String} {mode : Mode} {token : Token} {cursor after : Cursor}
    {error : Error} (h : (Cursor.ofText text label).next = (.ok token, cursor)) (hk : token.kind = .integer)
    (hn : cursor.next = (.error error, after)) : parse text label mode = .error error := by
  obtain ⟨value, hl⟩ := (Cursor.step_of_next h).coherent.mp hk
  obtain ⟨last, stop⟩ : ∃ last, formula (.begun mode token cursor) = (.error error, last) := by
    have kind : (Parser.begun mode token cursor).current.kind = .integer := hk
    have literal : (Parser.begun mode token cursor).current.literal = .integer value := hl
    have ahead : (Parser.begun mode token cursor).cursor.next = (.error error, after) := hn
    simp only [formula, formulaOf, termOf, run_bind, factorOf_of_integer literal, eat_of_error kind ahead]
    exact ⟨_, rfl⟩
  rw [parse, parseLogged_of_next h, stop]

end

/-- An integer, and so far behind it a character that begins no token. -/
def farLine (blanks : Nat) : List Char :=
  '1' :: (List.replicate blanks ' ' ++ ['&'])

theorem takeWhile_replicate_append (blanks : Nat) :
    (List.replicate blanks ' ' ++ ['&']).takeWhile isBlank = List.replicate blanks ' ' := by
  refine takeWhile_append_of_stop (fun c hc => List.eq_of_mem_replicate hc ▸ rfl) fun c hc => ?_
  cases hc
  rfl

theorem trimStart_replicate_append (blanks : Nat) : trimStart (List.replicate blanks ' ' ++ ['&']) = ['&'] := by
  rw [trimStart, List.dropWhile_append_of_pos fun c hc => List.eq_of_mem_replicate hc ▸ rfl]
  rfl

theorem evaluate_farLine (blanks : Nat) (label : String) (mode : Mode) :
    evaluate (farLine (blanks + 1)) label mode =
      .error ⟨.unknownCharacter '&', ⟨UInt32.ofNat (blanks + 2), label⟩⟩ := by
  have first : (Cursor.ofText (farLine (blanks + 1)) label).next =
      (.ok ⟨.integer, .integer 1, ⟨⟨0, label⟩, ⟨1, label⟩⟩⟩,
        ⟨1, List.replicate (blanks + 1) ' ' ++ ['&'], label⟩) := rfl
  have second : Cursor.next ⟨1, List.replicate (blanks + 1) ' ' ++ ['&'], label⟩ =
      (.error ⟨.unknownCharacter '&', ⟨UInt32.ofNat (blanks + 2), label⟩⟩, ⟨blanks + 2, ['&'], label⟩) := by
    simp only [Cursor.next, Cursor.skipBlanks, takeWhile_replicate_append, trimStart_replicate_append,
      Utf8.size_replicate_blank, Cursor.skip, Nat.add_comm 1 (blanks + 1)]
    rfl
  rw [evaluate_eq_map_parse, parse_of_misread first rfl second]
  rfl

theorem Utf8.decode_of_ascii {bytes : List UInt8} (h : ∀ b ∈ bytes, b < 0x80) :
    Utf8.decode bytes = bytes.map fun b => Char.ofNat b.toNat := by
  induction bytes with
  | nil => rfl
  | cons b bytes ih =>
    obtain ⟨hb, hs⟩ := List.forall_mem_cons.mp h
    have first : Utf8.start b = ([Char.ofNat b.toNat], none) := if_pos hb
    rw [Utf8.decode, Utf8.decodeFrom, Utf8.step, first, ← Utf8.decode, ih hs]
    rfl

namespace Session
variable {options : Options}

theorem not_drawable_farLine {blanks : Nat} (far : maxCaretWidth ≤ blanks + 2) (short : blanks + 2 < UInt32.size) :
    ¬Drawable options (farLine (blanks + 1)) := by
  intro drawable
  have caret := drawable _ (evaluate_farLine blanks options.label options.mode)
  have size : Utf8.size ('1' :: List.replicate (blanks + 1) ' ') = blanks + 2 := by
    rw [Utf8.size_cons, Utf8.size_replicate_blank]
    exact Nat.add_comm 1 (blanks + 1)
  have split : farLine (blanks + 1) = ('1' :: List.replicate (blanks + 1) ' ') ++ ['&'] := rfl
  have column : column (farLine (blanks + 1)) (blanks + 2) = blanks + 2 := by
    have drop := Utf8.drop?_size_append ('1' :: List.replicate (blanks + 1) ' ') ['&']
    have inside : min (blanks + 2) (Utf8.size (farLine (blanks + 1))) = blanks + 2 := by
      rw [split, Utf8.size_append, size]
      omega
    rw [size] at drop
    rw [Polish.column, inside, split, drop]
    simp
  have place : (UInt32.ofNat (blanks + 2)).toNat = blanks + 2 := UInt32.toNat_ofNat_of_lt' short
  -- The line begins with its integer, so nothing is left out in front of the caret.
  have blank : (farLine (blanks + 1)).takeWhile isBlank = [] := rfl
  rw [Error.shownColumn, place, column, blank, List.length_nil, Nat.sub_zero] at caret
  omega

/-- The bytes of `farLine`. -/
def farBytes (blanks : Nat) : List UInt8 :=
  0x31 :: (List.replicate blanks 0x20 ++ [0x26])

theorem lineText_farBytes (blanks : Nat) : lineText (farBytes blanks) = farLine blanks := by
  have ascii : ∀ b ∈ farBytes blanks, b < 0x80 := by
    intro b hb
    simp only [farBytes, List.mem_cons, List.mem_append, List.mem_replicate, List.not_mem_nil, or_false] at hb
    rcases hb with rfl | ⟨-, rfl⟩ | rfl <;> decide
  rw [lineText, Utf8.decode_of_ascii ascii]
  simp [farBytes, farLine, dropEndWhile]

theorem lines_farBytes (blanks : Nat) : (Input.mk (farBytes blanks ++ [0x0A]) false).lines = [farBytes blanks] := by
  refine Input.lines_of_terminated ⟨by simp, List.forall_mem_singleton.mpr fun mem => ?_, nofun⟩
  simp only [farBytes, List.mem_cons, List.mem_append, List.mem_replicate, List.not_mem_nil, or_false] at mem
  rcases mem with h | ⟨-, h⟩ | h <;> cases h

end Session

open Session

/-- On unlimited streams and with input that can be read, exactly the lines with a caret too far to the right
    end a session before its time, and those are long. Reading the tokens of a line never fails but for a
    fault. -/
theorem session_ends_iff (options : Options) (bytes : List UInt8) :
    ((run options ⟨bytes, false⟩ .unlimited).1 = .ok () ↔
      ∀ line ∈ (Input.mk bytes false).lines, Drawable options (lineText line)) ∧
    ((run options ⟨bytes, false⟩ .unlimited).1 = .ok () → written options ⟨bytes, false⟩ =
      (Input.mk bytes false).lines.flatMap (fun line => block options (lineText line)) ++
        (Stream.out.bytes options.prompt ++ Stream.out.bytes "\n")) ∧
    ((run options ⟨bytes, false⟩ .unlimited).1 ≠ .ok () →
      (run options ⟨bytes, false⟩ .unlimited).1 = .error .caretTooFar ∧
      ∃ front line back, (Input.mk bytes false).lines = front ++ line :: back ∧
        (∀ line ∈ front, Drawable options (lineText line)) ∧ ¬Drawable options (lineText line) ∧
        written options ⟨bytes, false⟩ = front.flatMap (fun line => block options (lineText line)) ++
          (Stream.out.bytes options.prompt ++ listing options (lineText line))) ∧
    (∀ line, line.length - (line.takeWhile isBlank).length < maxCaretWidth → Drawable options line) ∧
    ∀ text label count, ((Reader.ofText text label).after count).next.1 =
      some ((Cursor.ofText text label).nth count) := by
  have ends (all : ∀ line ∈ (Input.mk bytes false).lines, Drawable options (lineText line)) :
      (run options ⟨bytes, false⟩ .unlimited).1 = .ok () := by
    rw [(plays_run all).unlimited]
    rfl
  have whole (h : (run options ⟨bytes, false⟩ .unlimited).1 = .ok ()) :
      ∀ line ∈ (Input.mk bytes false).lines, Drawable options (lineText line) :=
    drawable_of_run (by rw [h]; nofun)
  refine ⟨⟨whole, ends⟩, fun h => written_eq (whole h), fun h => ?_, fun _ => drawable_of_lt,
    Reader.next_after_ofText⟩
  rcases drawable_or_first options (Input.mk bytes false).lines with all | ⟨front, line, back, lines, before, far⟩
  · exact absurd (ends all) h
  · have unlimited := (plays_run_error lines before far).unlimited
    exact ⟨by rw [unlimited], front, line, back, lines, before, far, by rw [written, unlimited]⟩

/-- The caret of the one line stands behind 65535 dashes. -/
theorem session_stops_at_far_caret :
    (run ⟨false, false, "calc> ", "shell"⟩ ⟨farBytes 65534 ++ [0x0A], false⟩ .unlimited).1 = .error .caretTooFar := by
  have far : ¬Drawable ⟨false, false, "calc> ", "shell"⟩ (lineText (farBytes 65534)) := by
    rw [lineText_farBytes]
    exact not_drawable_farLine (by decide) (by decide)
  have lines : (Input.mk (farBytes 65534 ++ [0x0A]) false).lines = [] ++ farBytes 65534 :: [] := lines_farBytes 65534
  rw [(plays_run_error lines nofun far).unlimited]

end Polish
