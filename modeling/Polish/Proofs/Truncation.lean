import Mathlib
import Polish.Proofs.Independence

/-! A stream that fails truncates a session. What is written is the longest part, from the start, of what would be
    written to unlimited streams that no stream is too small for. When reading fails, the lines that have ended
    are answered as they would be otherwise. -/

namespace Polish
namespace Console

/-- A console with a given number of bytes for each stream. -/
def limited (outRoom errRoom : Nat) : Console :=
  ⟨some outRoom, some errRoom, #[]⟩

/-- Neither stream gets more bytes than it has room for. -/
def Within (outRoom errRoom : Nat) (entries : List (Stream × UInt8)) : Prop :=
  entries.countP (·.1 = .out) ≤ outRoom ∧ entries.countP (·.1 = .err) ≤ errRoom

/-- The longest beginning of a sequence of bytes for which there is room. -/
structure Cut (outRoom errRoom : Nat) (whole part : List (Stream × UInt8)) : Prop where
  isPrefix : part <+: whole
  within : Within outRoom errRoom part
  longest : ∀ other, other <+: whole → Within outRoom errRoom other → other <+: part

section
variable {outRoom errRoom outRoom' errRoom' : Nat} {entry : Stream × UInt8} {whole part : List (Stream × UInt8)}

theorem Cut.refl_nil : Cut outRoom errRoom [] [] :=
  ⟨List.prefix_rfl, ⟨Nat.zero_le _, Nat.zero_le _⟩, fun _ h _ => h⟩

theorem Cut.nil (full : ∀ rest, ¬Within outRoom errRoom (entry :: rest)) : Cut outRoom errRoom (entry :: whole) [] := by
  refine ⟨List.nil_prefix, ⟨Nat.zero_le _, Nat.zero_le _⟩, fun other isPrefix within => ?_⟩
  cases other with
  | nil => exact List.prefix_rfl
  | cons first other =>
    obtain ⟨rfl, -⟩ := List.cons_prefix_cons.mp isPrefix
    exact absurd within (full other)

theorem Cut.cons (h : Cut outRoom errRoom whole part)
    (spent : ∀ rest, Within outRoom' errRoom' (entry :: rest) ↔ Within outRoom errRoom rest) :
    Cut outRoom' errRoom' (entry :: whole) (entry :: part) := by
  refine ⟨List.cons_prefix_cons.mpr ⟨rfl, h.isPrefix⟩, (spent part).mpr h.within, fun other isPrefix within => ?_⟩
  cases other with
  | nil => exact List.nil_prefix
  | cons first other =>
    obtain ⟨rfl, rest⟩ := List.cons_prefix_cons.mp isPrefix
    exact List.cons_prefix_cons.mpr ⟨rfl, h.longest other rest ((spent other).mp within)⟩

/-- A console with limited streams takes the longest beginning that it has room for. -/
theorem feed_cut (bytes : List (Stream × UInt8)) (outRoom errRoom : Nat) (written : Array (Stream × UInt8)) :
    ∃ part, Cut outRoom errRoom bytes part ∧
      (feed ⟨some outRoom, some errRoom, written⟩ bytes).2.written = written ++ part ∧
      ((feed ⟨some outRoom, some errRoom, written⟩ bytes).1 = true ↔ part = bytes) := by
  induction bytes generalizing outRoom errRoom written with
  | nil => exact ⟨[], .refl_nil, by simp [feed], by simp [feed]⟩
  | cons entry bytes ih =>
    obtain ⟨stream, byte⟩ := entry
    -- A byte takes room from its own stream alone; where that is full, the part ends, whatever room the other has.
    cases stream with
    | out =>
      cases outRoom with
      | zero => exact ⟨[], .nil (by simp [Within]), by simp [feed, room], by simp [feed, room]⟩
      | succ outRoom =>
        obtain ⟨part, cut, hw, hr⟩ := ih outRoom errRoom (written ++ [(Stream.out, byte)])
        refine ⟨(.out, byte) :: part, cut.cons (by simp [Within]), ?_, ?_⟩
        · simpa [feed, room, put, ← Array.toList_inj] using hw
        · simpa [feed, room, put] using hr
    | err =>
      cases errRoom with
      | zero => exact ⟨[], .nil (by simp [Within]), by simp [feed, room], by simp [feed, room]⟩
      | succ errRoom =>
        obtain ⟨part, cut, hw, hr⟩ := ih outRoom errRoom (written ++ [(Stream.err, byte)])
        refine ⟨(.err, byte) :: part, cut.cons (by simp [Within]), ?_, ?_⟩
        · simpa [feed, room, put, ← Array.toList_inj] using hw
        · simpa [feed, room, put] using hr

/-- On limited streams a computation writes the longest beginning for which there is room, and it fails unless
    that is all. -/
theorem Plays.limited {action : ConsoleM Unit} {ending : Except Interruption Unit} (h : Plays action whole ending)
    (outRoom errRoom : Nat) :
    ∃ part, Cut outRoom errRoom whole part ∧ (action (.limited outRoom errRoom)).2.written.toList = part ∧
      (action (.limited outRoom errRoom)).1 = if part = whole then ending else .error .failedStream := by
  obtain ⟨part, cut, hw, hr⟩ := feed_cut whole outRoom errRoom #[]
  refine ⟨part, cut, ?_⟩
  rw [h, Console.limited]
  rcases hf : feed ⟨some outRoom, some errRoom, #[]⟩ whole with ⟨_ | _, after⟩
  · rw [hf] at hw hr
    have more : part ≠ whole := fun heq => by cases hr.mpr heq
    exact ⟨by simpa using congrArg Array.toList hw, (if_neg more).symm⟩
  · rw [hf] at hw hr
    exact ⟨by simpa using congrArg Array.toList hw, (if_pos (hr.mp rfl)).symm⟩

end

end Console

open Console Session

/-- Reading that fails behind some bytes loses what stands after the last newline. -/
theorem written_of_fails {options : Options} {bytes : List UInt8}
    (drawable : ∀ line ∈ (Input.mk bytes true).lines, Drawable options (lineText line)) :
    ∃ complete last blocks, bytes = complete ++ last ∧ Terminated complete ∧ 0x0A ∉ last ∧
      written options ⟨complete, false⟩ = blocks ++ (Stream.out.bytes options.prompt ++ Stream.out.bytes "\n") ∧
      written options ⟨bytes, true⟩ = blocks ++ Stream.out.bytes options.prompt := by
  have lines := lines_splitLines bytes
  have complete : Lines ((splitLines bytes).1.flatMap (· ++ [0x0A])) (splitLines bytes).1 [] :=
    ⟨(List.append_nil _).symm, lines.line, nofun⟩
  have same : (Input.mk _ false).lines = (Input.mk bytes true).lines :=
    (Input.lines_of_terminated complete).trans (Input.lines_of_fails lines).symm
  refine ⟨_, _, _, lines.join, complete.terminated_iff.mpr rfl, lines.last, written_eq (same ▸ drawable), ?_⟩
  rw [written_eq drawable, same, farewell, if_pos rfl, List.append_nil]

/-- With limited streams a session is cut off where a stream is full, and it ends well exactly if it is not cut
    off; if reading fails, it answers the lines that have ended and prompts once more. -/
theorem failing_stream_truncates (options : Options) (input : Input) (outRoom errRoom : Nat)
    (safe : (run options input .unlimited).1 ≠ .error .caretTooFar) :
    Cut outRoom errRoom (written options input) (run options input (.limited outRoom errRoom)).2.written.toList ∧
    (input.fails = false →
      ((run options input (.limited outRoom errRoom)).1 = .ok () ↔
        (run options input (.limited outRoom errRoom)).2.written.toList = written options input)) ∧
    (input.fails = true →
      (run options input .unlimited).1 = .error .failedStream ∧
      (run options input (.limited outRoom errRoom)).1 = .error .failedStream ∧
      ∃ complete last blocks, input.bytes = complete ++ last ∧ Terminated complete ∧ 0x0A ∉ last ∧
        written options ⟨complete, false⟩ = blocks ++ (Stream.out.bytes options.prompt ++ Stream.out.bytes "\n") ∧
        written options input = blocks ++ Stream.out.bytes options.prompt) := by
  have drawable := drawable_of_run safe
  have plays := plays_run drawable
  rw [← written_eq drawable] at plays
  obtain ⟨part, cut, hw, hr⟩ := plays.limited outRoom errRoom
  rw [hw, hr]
  refine ⟨cut, fun fails => ?_, fun fails => ?_⟩
  · rw [fails]
    split <;> simp_all
  · refine ⟨by rw [plays.unlimited, fails]; rfl, by rw [fails]; split <;> rfl, ?_⟩
    obtain ⟨bytes, _⟩ := input
    cases fails
    exact written_of_fails drawable

/-- The second stream is full within a diagnostic, and then the first one gets no more, though it has room. -/
theorem failing_stream_truncates_in_diagnostic :
    (run ⟨false, true, "> ", "s"⟩ ⟨[0x31, 0x0A, 0x28, 0x0A, 0x32], true⟩ .unlimited).1 ≠ .error .caretTooFar ∧
    Cut 44 3 (written ⟨false, true, "> ", "s"⟩ ⟨[0x31, 0x0A, 0x28, 0x0A, 0x32], true⟩)
      (run ⟨false, true, "> ", "s"⟩ ⟨[0x31, 0x0A, 0x28, 0x0A, 0x32], true⟩ (.limited 44 3)).2.written.toList ∧
    (run ⟨false, true, "> ", "s"⟩ ⟨[0x31, 0x0A, 0x28, 0x0A, 0x32], true⟩ (.limited 44 3)).1 = .error .failedStream := by
  have drawable : ∀ line ∈ (Input.mk [0x31, 0x0A, 0x28, 0x0A, 0x32] true).lines,
      Drawable ⟨false, true, "> ", "s"⟩ (lineText line) := by
    intro line hl
    apply drawable_of_lt
    revert line
    decide
  have safe : (run ⟨false, true, "> ", "s"⟩ ⟨[0x31, 0x0A, 0x28, 0x0A, 0x32], true⟩ .unlimited).1 ≠
      .error .caretTooFar := by
    rw [(plays_run drawable).unlimited]
    decide
  obtain ⟨cut, -, failed⟩ :=
    failing_stream_truncates ⟨false, true, "> ", "s"⟩ ⟨[0x31, 0x0A, 0x28, 0x0A, 0x32], true⟩ 44 3 safe
  exact ⟨safe, cut, (failed rfl).2.1⟩

end Polish
