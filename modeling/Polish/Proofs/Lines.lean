import Mathlib
import Polish.Session

/-! The lines of an input. Splitting bytes at the newlines is the inverse of ending lines with a newline each,
    so the lines of bytes that follow a newline do not depend on what stands before it. -/

namespace Polish

/-- Each line of `lines` and a newline behind it, and then `last`. -/
structure Lines (bytes : List UInt8) (lines : List (List UInt8)) (last : List UInt8) : Prop where
  join : bytes = lines.flatMap (· ++ [0x0A]) ++ last
  line : ∀ line ∈ lines, 0x0A ∉ line
  last : 0x0A ∉ last

/-- No line is begun at the end of the bytes. -/
def Terminated (bytes : List UInt8) : Prop :=
  bytes = [] ∨ bytes.getLast? = some 0x0A

theorem splitLines_of_not_mem {last : List UInt8} (h : 0x0A ∉ last) : splitLines last = ([], last) := by
  induction last with
  | nil => rfl
  | cons b last ih =>
    have hb := List.ne_of_not_mem_cons h
    have hl := List.not_mem_of_not_mem_cons h
    simp [splitLines, beq_eq_false_iff_ne.mpr hb.symm, ih hl]

theorem splitLines_append_of_not_mem {line : List UInt8} (h : 0x0A ∉ line) (bytes : List UInt8) :
    splitLines (line ++ 0x0A :: bytes) = (line :: (splitLines bytes).1, (splitLines bytes).2) := by
  induction line with
  | nil => simp [splitLines]
  | cons b line ih =>
    have hb := List.ne_of_not_mem_cons h
    have hl := List.not_mem_of_not_mem_cons h
    simp [splitLines, beq_eq_false_iff_ne.mpr hb.symm, ih hl]

theorem lines_splitLines (bytes : List UInt8) : Lines bytes (splitLines bytes).1 (splitLines bytes).2 := by
  induction bytes with
  | nil => exact ⟨rfl, nofun, nofun⟩
  | cons b bytes ih =>
    obtain ⟨join, line, last⟩ := ih
    rw [splitLines]
    rcases hb : b == 0x0A with _ | _
    · have hb := beq_eq_false_iff_ne.mp hb
      rcases hs : splitLines bytes with ⟨_ | ⟨first, lines⟩, rest⟩
      · rw [hs] at join last
        exact ⟨by simpa using join, nofun, List.not_mem_cons_of_ne_of_not_mem hb.symm last⟩
      · rw [hs] at join line last
        obtain ⟨hf, hl⟩ := List.forall_mem_cons.mp line
        exact ⟨by simpa using join, List.forall_mem_cons.mpr ⟨List.not_mem_cons_of_ne_of_not_mem hb.symm hf, hl⟩, last⟩
    · rw [eq_of_beq hb]
      exact ⟨by simpa using join, List.forall_mem_cons.mpr ⟨nofun, line⟩, last⟩

theorem splitLines_eq_iff {bytes : List UInt8} {lines : List (List UInt8)} {last : List UInt8} :
    splitLines bytes = (lines, last) ↔ Lines bytes lines last := by
  constructor
  · intro h
    simpa only [h] using lines_splitLines bytes
  · rintro ⟨rfl, line, last⟩
    induction lines with
    | nil => exact splitLines_of_not_mem last
    | cons first lines ih =>
      obtain ⟨hf, hl⟩ := List.forall_mem_cons.mp line
      simp [splitLines_append_of_not_mem hf, ih hl]

theorem Lines.append {a b : List UInt8} {lines lines' : List (List UInt8)} {last : List UInt8} (h : Lines a lines [])
    (h' : Lines b lines' last) : Lines (a ++ b) (lines ++ lines') last where
  join := by rw [h.join, h'.join, List.append_nil, List.flatMap_append, List.append_assoc]
  line := List.forall_mem_append.mpr ⟨h.line, h'.line⟩
  last := h'.last

theorem Lines.terminated_iff {bytes : List UInt8} {lines : List (List UInt8)} {last : List UInt8}
    (h : Lines bytes lines last) : Terminated bytes ↔ last = [] := by
  obtain ⟨rfl, -, hl⟩ := h
  unfold Terminated
  constructor
  · rintro (hn | hn)
    · exact (List.append_eq_nil_iff.mp hn).2
    · by_contra more
      rw [List.getLast?_append_of_ne_nil _ more] at hn
      exact hl (List.mem_of_getLast? hn)
  · rintro rfl
    rcases List.eq_nil_or_concat lines with rfl | ⟨lines, line, rfl⟩
    · exact Or.inl rfl
    · exact Or.inr (by simp)

namespace Input
variable {a b bytes : List UInt8} {fails : Bool} {lines : List (List UInt8)} {last : List UInt8}

theorem lines_of_terminated (h : Lines bytes lines []) : (Input.mk bytes fails).lines = lines := by
  simp [Input.lines, splitLines_eq_iff.mpr h]

/-- After a newline the lines of an input are those of the bytes behind it. -/
theorem lines_append (ended : Terminated a) :
    (Input.mk (a ++ b) fails).lines = (Input.mk a fails).lines ++ (Input.mk b fails).lines := by
  have ha := lines_splitLines a
  have hb := lines_splitLines b
  rw [ha.terminated_iff.mp ended] at ha
  rw [lines_of_terminated ha]
  simp only [Input.lines, splitLines_eq_iff.mpr (ha.append hb)]
  split <;> simp

/-- When reading fails, the lines are those that have ended. -/
theorem lines_of_fails (h : Lines bytes lines last) : (Input.mk bytes true).lines = lines := by
  simp [Input.lines, splitLines_eq_iff.mpr h]

end Input

end Polish
