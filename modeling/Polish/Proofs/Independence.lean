import Mathlib
import Polish.Proofs.Lines
import Polish.Proofs.Transcript

/-! Lines are independent. A session writes one block for each line and then takes its leave, and the block of a
    line is what that line has by itself, whatever was read before it. -/

namespace Polish

theorem Stream.line_ne_nil (stream : Stream) (text : String) : stream.line text ≠ [] := by
  simp [Stream.line, Stream.bytes, String.toList_append, Utf8.encode, String.utf8EncodeChar]

namespace Session
variable {options : Options} {line : List Char} {input : Input} {a b : List UInt8}

theorem reply_of_drawable (drawable : Drawable options line) :
    (∃ rendered, evaluate line options.label options.mode = .ok rendered ∧
      reply options line = Stream.out.line rendered) ∨
    ∃ error diagnostic, evaluate line options.label options.mode = .error error ∧
      error.diagnostic? line = some diagnostic ∧ reply options line = Stream.err.line diagnostic := by
  unfold reply
  rcases h : evaluate line options.label options.mode with error | rendered
  · obtain ⟨diagnostic, hd⟩ := drawable.exists_diagnostic h
    exact Or.inr ⟨error, diagnostic, rfl, hd, by simp only [hd, Option.map_some, Option.getD_some]⟩
  · exact Or.inl ⟨rendered, rfl, rfl⟩

/-- A line has an answer unless it is blank. -/
theorem block_eq_prompt_iff (drawable : Drawable options line) :
    block options line = Stream.out.bytes options.prompt ↔
      ∃ token, tokenize line options.label = .ok [token] ∧ token.kind = .endOfText := by
  constructor
  · intro h
    -- A line that is not blank has a reply, and every reply ends with a newline at least.
    by_contra none
    rw [block_of_not_blank fun blank => none (tokenize_of_blank blank), List.append_right_eq_self] at h
    obtain ⟨-, h⟩ := List.append_eq_nil_iff.mp h
    rcases reply_of_drawable drawable with ⟨_, -, hr⟩ | ⟨_, _, -, -, hr⟩
    · exact Stream.line_ne_nil _ _ (hr.symm.trans h)
    · exact Stream.line_ne_nil _ _ (hr.symm.trans h)
  · rintro ⟨token, ht, -⟩
    exact block_of_blank (blank_of_tokenize ht).2

theorem written_eq (drawable : ∀ line ∈ input.lines, Drawable options (lineText line)) :
    written options input =
      input.lines.flatMap (fun line => block options (lineText line)) ++ farewell options input := by
  rw [written, (plays_run drawable).unlimited]

end Session

open Session

/-- A session on some lines and then more is the session on the first of them, up to where it would take its
    leave, and then the session on the rest. -/
theorem lines_are_independent (options : Options) (a b : List UInt8) (ended : Terminated a)
    (drawable : ∀ line ∈ (Input.mk (a ++ b) false).lines, Drawable options (lineText line)) :
    (∃ blocks, written options ⟨a, false⟩ = blocks ++ (Stream.out.bytes options.prompt ++ Stream.out.bytes "\n") ∧
      written options ⟨a ++ b, false⟩ = blocks ++ written options ⟨b, false⟩) ∧
    written options ⟨a ++ b, false⟩ =
      (Input.mk (a ++ b) false).lines.flatMap (fun line => block options (lineText line)) ++
        (Stream.out.bytes options.prompt ++ Stream.out.bytes "\n") ∧
    ∀ line, Drawable options line →
      (block options line = Stream.out.bytes options.prompt ↔
        ∃ token, tokenize line options.label = .ok [token] ∧ token.kind = .endOfText) ∧
      ((¬∃ token, tokenize line options.label = .ok [token] ∧ token.kind = .endOfText) →
        (∃ rendered, evaluate line options.label options.mode = .ok rendered ∧
          block options line =
            Stream.out.bytes options.prompt ++ (listing options line ++ Stream.out.line rendered)) ∨
        ∃ error diagnostic, evaluate line options.label options.mode = .error error ∧
          error.diagnostic? line = some diagnostic ∧
          block options line =
            Stream.out.bytes options.prompt ++ (listing options line ++ Stream.err.line diagnostic)) := by
  refine ⟨?_, written_eq drawable, fun line hd => ⟨block_eq_prompt_iff hd, fun more => ?_⟩⟩
  · have lines : (Input.mk (a ++ b) false).lines = (Input.mk a false).lines ++ (Input.mk b false).lines :=
      Input.lines_append ended
    have all := written_eq drawable
    rw [lines] at drawable
    obtain ⟨ha, hb⟩ := List.forall_mem_append.mp drawable
    refine ⟨_, written_eq ha, ?_⟩
    rw [all, lines, List.flatMap_append, List.append_assoc, written_eq hb]
    rfl
  · rw [block_of_not_blank fun blank => more (tokenize_of_blank blank)]
    rcases reply_of_drawable hd with ⟨rendered, he, hr⟩ | ⟨error, diagnostic, he, hdiag, hr⟩
    · exact Or.inl ⟨rendered, he, by rw [hr]⟩
    · exact Or.inr ⟨error, diagnostic, he, hdiag, by rw [hr]⟩

/-- The first session ends with a line that is blank but for a carriage return, and the second one begins with
    a byte that is no text and has no newline at its end. -/
theorem lines_are_independent_after_blank_line :
    Terminated [0x31, 0x0A, 0x20, 0x0D, 0x0A] ∧
    (∀ line ∈ (Input.mk ([0x31, 0x0A, 0x20, 0x0D, 0x0A] ++ [0xFF, 0x32]) false).lines,
      Drawable ⟨true, true, "> ", "s"⟩ (lineText line)) ∧
    ∃ blocks, written ⟨true, true, "> ", "s"⟩ ⟨[0x31, 0x0A, 0x20, 0x0D, 0x0A], false⟩ =
        blocks ++ (Stream.out.bytes "> " ++ Stream.out.bytes "\n") ∧
      written ⟨true, true, "> ", "s"⟩ ⟨[0x31, 0x0A, 0x20, 0x0D, 0x0A] ++ [0xFF, 0x32], false⟩ =
        blocks ++ written ⟨true, true, "> ", "s"⟩ ⟨[0xFF, 0x32], false⟩ := by
  have ended : Terminated [0x31, 0x0A, 0x20, 0x0D, 0x0A] := Or.inr rfl
  have drawable : ∀ line ∈ (Input.mk ([0x31, 0x0A, 0x20, 0x0D, 0x0A] ++ [0xFF, 0x32]) false).lines,
      Drawable ⟨true, true, "> ", "s"⟩ (lineText line) := by
    intro line hl
    apply drawable_of_lt
    revert line
    decide
  exact ⟨ended, drawable, (lines_are_independent ⟨true, true, "> ", "s"⟩ _ _ ended drawable).1⟩

end Polish
