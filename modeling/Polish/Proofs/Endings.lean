import Mathlib
import Polish.Proofs.Encoding
import Polish.Proofs.Lines

/-! Where lines end. A session depends on the texts of its lines alone. So it makes no difference whether bytes are
    read as text line by line or all at once, and none how many carriage returns stand in front of a newline. -/

namespace Polish
open Utf8 (decode encode)

/-- The texts that are to be answered. -/
def Input.texts (input : Input) : List (List Char) :=
  input.lines.map lineText

namespace Session
variable {options : Options}

/-- Sessions on the same texts are the same, wherever reading ends or fails alike. -/
theorem run_eq_of_texts_eq {input other : Input} (texts : input.texts = other.texts)
    (fails : input.fails = other.fails) : run options input = run options other := by
  have turns (input : Input) : input.lines.forM (turn options) =
      input.texts.forM (fun text => Console.write .out options.prompt >>= fun _ => respond options text) := by
    rw [Input.texts, List.forM_eq_forM, List.forM_eq_forM, List.forM_map]
    rfl
  rw [run, run, turns, turns, texts, fails]

end Session

open Session

/-! ### Bytes read as text -/

section
variable {bytes : List UInt8} {lines : List (List UInt8)} {last : List UInt8}

theorem newline_not_mem_decode {line : List UInt8} (h : 0x0A ∉ line) : '\n' ∉ decode line := by
  intro mem
  rcases Utf8.attested_of_mem_decode mem with heq | part
  · cases heq
  · exact h (part.subset (List.mem_singleton_self _))

/-- Each line is read as if it stood alone. -/
theorem Lines.decode_eq (h : Lines bytes lines last) :
    decode bytes = lines.flatMap (fun line => decode line ++ ['\n']) ++ decode last := by
  obtain ⟨rfl, -, -⟩ := h
  induction lines with
  | nil => rfl
  | cons line lines ih =>
    have newline : (0x0A : UInt8) < 0x80 := by decide
    have apart := Utf8.decode_append_of_lt newline line (lines.flatMap (· ++ [0x0A]) ++ last)
    rw [List.flatMap_cons, List.append_assoc, List.append_assoc, List.singleton_append, apart, ih, List.flatMap_cons,
      List.append_assoc, List.append_assoc]
    rfl

/-- The lines of bytes are still its lines when they are read as text and written again. -/
theorem Lines.encode_decode (h : Lines bytes lines last) :
    Lines (encode (decode bytes)) (lines.map fun line => encode (decode line)) (encode (decode last)) := by
  -- What is written for a line has no newline, since only a newline is written with that byte.
  have clean {line : List UInt8} (hl : 0x0A ∉ line) : 0x0A ∉ encode (decode line) := fun mem =>
    newline_not_mem_decode hl (Utf8.mem_of_mem_encode (by decide) mem)
  refine ⟨?_, List.forall_mem_map.mpr fun line mem => clean (h.line line mem), clean h.last⟩
  have written (line : List UInt8) : encode (decode line ++ ['\n']) = encode (decode line) ++ [0x0A] :=
    Utf8.encode_append ..
  rw [h.decode_eq, Utf8.encode_append, List.flatMap_map, encode, List.flatMap_assoc]
  exact congrArg (· ++ _) (List.flatMap_congr fun line _ => written line)

theorem Lines.concat {b : UInt8} (h : Lines bytes lines last) (hb : b ≠ 0x0A) :
    Lines (bytes ++ [b]) lines (last ++ [b]) := by
  refine ⟨?_, h.line, fun mem => ?_⟩
  · rw [h.join, List.append_assoc]
  · rcases List.mem_append.mp mem with mem | mem
    · exact h.last mem
    · exact hb (List.mem_singleton.mp mem).symm

/-- A newline ends the line that is not ended yet. -/
theorem Lines.append_newline {back : List UInt8} {more : List (List UInt8)} {rest : List UInt8}
    (h : Lines bytes lines last) (h' : Lines back more rest) :
    Lines (bytes ++ 0x0A :: back) (lines ++ last :: more) rest := by
  have ended : Lines (bytes ++ [0x0A]) (lines ++ [last]) [] := by
    refine ⟨?_, List.forall_mem_append.mpr ⟨h.line, List.forall_mem_singleton.mpr h.last⟩, List.not_mem_nil⟩
    rw [h.join, List.flatMap_append, List.flatMap_singleton, List.append_assoc, List.append_nil]
  have whole := ended.append h'
  rwa [List.append_assoc, List.append_assoc] at whole

theorem Input.texts_eq (h : Lines bytes lines last) (fails : Bool) :
    (Input.mk bytes fails).texts =
      lines.map lineText ++ if fails || last.isEmpty then [] else [lineText last] := by
  simp only [texts, Input.lines, splitLines_eq_iff.mpr h]
  split
  · rw [List.append_nil]
  · rw [List.map_append, List.map_singleton]

/-! ### Lines as they are shown -/

/-- A line has the same text when it is read and written again. -/
theorem lineText_encode_decode (line : List UInt8) : lineText (encode (decode line)) = lineText line := by
  rw [lineText, Utf8.decode_encode, lineText]

theorem lineText_concat_return (line : List UInt8) : lineText (line ++ [0x0D]) = lineText line := by
  have small : (0x0D : UInt8) < 0x80 := by decide
  have apart : decode (line ++ [0x0D]) = decode line ++ ['\r'] := Utf8.decode_append_of_lt small line []
  rw [lineText, lineText, apart, dropEndWhile, dropEndWhile, List.reverse_append]
  rfl

end

/-! ### Main results -/

/-- Bytes that are read as text at once and written again make the same session as the bytes themselves, of which each
    line is read by itself. -/
theorem session_reads_text (options : Options) (bytes : List UInt8) (fails : Bool) :
    (∀ console, run options ⟨encode (decode bytes), fails⟩ console = run options ⟨bytes, fails⟩ console) ∧
    decode bytes =
      (splitLines bytes).1.flatMap (fun line => decode line ++ ['\n']) ++ decode (splitLines bytes).2 ∧
    splitLines (encode (decode bytes)) =
      ((splitLines bytes).1.map fun line => encode (decode line), encode (decode (splitLines bytes).2)) := by
  have lines := lines_splitLines bytes
  refine ⟨fun console => ?_, lines.decode_eq, splitLines_eq_iff.mpr lines.encode_decode⟩
  have ended : (encode (decode (splitLines bytes).2)).isEmpty = (splitLines bytes).2.isEmpty := by
    rw [Bool.eq_iff_iff, List.isEmpty_iff, List.isEmpty_iff, Utf8.encode_decode_eq_nil_iff]
  have texts : (Input.mk (encode (decode bytes)) fails).texts = (Input.mk bytes fails).texts := by
    rw [Input.texts_eq lines.encode_decode, Input.texts_eq lines, List.map_map, ended, lineText_encode_decode]
    exact congrArg (· ++ _) (List.map_congr_left fun line _ => lineText_encode_decode line)
  rw [run_eq_of_texts_eq texts rfl]

/-- `padded` is `bytes` with carriage returns put in, each immediately in front of a newline. -/
inductive Padded (bytes : List UInt8) : List UInt8 → Prop
  | refl : Padded bytes bytes
  | insert {front back : List UInt8} : Padded bytes (front ++ 0x0A :: back) →
      Padded bytes (front ++ 0x0D :: 0x0A :: back)

theorem texts_insert_return (front back : List UInt8) (fails : Bool) :
    (Input.mk (front ++ 0x0D :: 0x0A :: back) fails).texts = (Input.mk (front ++ 0x0A :: back) fails).texts := by
  have lines := lines_splitLines front
  have padded := (lines.concat (b := 0x0D) (by decide)).append_newline (lines_splitLines back)
  rw [List.append_assoc, List.singleton_append] at padded
  rw [Input.texts_eq padded, Input.texts_eq (lines.append_newline (lines_splitLines back)), List.map_append,
    List.map_append, List.map_cons, List.map_cons, lineText_concat_return]

/-- Carriage returns in front of newlines make no difference. -/
theorem returns_do_not_matter (options : Options) (bytes padded : List UInt8) (fails : Bool) (h : Padded bytes padded)
    (console : Console) : run options ⟨padded, fails⟩ console = run options ⟨bytes, fails⟩ console := by
  have texts : (Input.mk padded fails).texts = (Input.mk bytes fails).texts := by
    -- The induction takes out one carriage return at a time.
    induction h with
    | refl => rfl
    | insert _ ih => exact (texts_insert_return _ _ fails).trans ih
  rw [run_eq_of_texts_eq texts rfl]

/-- Two carriage returns stand behind an open parenthesis, whose error is at the end of its line, and one behind a
    sequence that is cut off. -/
theorem returns_do_not_matter_behind_cut_sequence :
    Padded [0x28, 0x0A, 0xE2, 0x82, 0x0A, 0x31] [0x28, 0x0D, 0x0D, 0x0A, 0xE2, 0x82, 0x0D, 0x0A, 0x31] ∧
    ∀ console,
      run ⟨true, true, "> ", "s"⟩ ⟨[0x28, 0x0D, 0x0D, 0x0A, 0xE2, 0x82, 0x0D, 0x0A, 0x31], false⟩ console =
        run ⟨true, true, "> ", "s"⟩ ⟨[0x28, 0x0A, 0xE2, 0x82, 0x0A, 0x31], false⟩ console := by
  have once : Padded [0x28, 0x0A, 0xE2, 0x82, 0x0A, 0x31] ([0x28] ++ 0x0D :: 0x0A :: [0xE2, 0x82, 0x0A, 0x31]) :=
    .insert .refl
  have twice : Padded [0x28, 0x0A, 0xE2, 0x82, 0x0A, 0x31]
      ([0x28, 0x0D] ++ 0x0D :: 0x0A :: [0xE2, 0x82, 0x0A, 0x31]) := .insert once
  have padded : Padded [0x28, 0x0A, 0xE2, 0x82, 0x0A, 0x31]
      ([0x28, 0x0D, 0x0D, 0x0A, 0xE2, 0x82] ++ 0x0D :: 0x0A :: [0x31]) := .insert twice
  exact ⟨padded, returns_do_not_matter _ _ _ false padded⟩

end Polish
