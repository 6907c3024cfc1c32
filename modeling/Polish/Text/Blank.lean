/-! White space: the characters with the Unicode property White_Space, and what trimming a text by
    them leaves. -/

namespace Polish

/-- The code points of white space, as closed ranges in increasing order. -/
def blankRanges : List (Nat × Nat) :=
  [(0x9, 0xD), (0x20, 0x20), (0x85, 0x85), (0xA0, 0xA0), (0x1680, 0x1680), (0x2000, 0x200A),
    (0x2028, 0x2029), (0x202F, 0x202F), (0x205F, 0x205F), (0x3000, 0x3000)]

/-- The character is white space. -/
def isBlank (c : Char) : Bool :=
  blankRanges.any fun range => range.1 ≤ c.toNat && c.toNat ≤ range.2

theorem not_isBlank_of_isDigit {c : Char} (h : c.isDigit = true) : isBlank c = false := by
  simp only [Char.isDigit, Bool.and_eq_true, decide_eq_true_eq, ge_iff_le, UInt32.le_iff_toNat_le] at h
  have low : 48 ≤ c.toNat := h.1
  have high : c.toNat ≤ 57 := h.2
  simp [isBlank, blankRanges]
  omega

/-- Leaves out the white space at the start. -/
def trimStart (text : List Char) : List Char :=
  text.dropWhile isBlank

theorem trimStart_of_isBlank {c : Char} (h : isBlank c = true) (text : List Char) :
    trimStart (c :: text) = trimStart text :=
  List.dropWhile_cons_of_pos h

theorem trimStart_of_not_isBlank {c : Char} (h : isBlank c = false) (text : List Char) :
    trimStart (c :: text) = c :: text :=
  List.dropWhile_cons_of_neg (by simp [h])

/-- Leaves out the longest end of a text whose characters all satisfy `p`. -/
def dropEndWhile (p : Char → Bool) (text : List Char) : List Char :=
  (text.reverse.dropWhile p).reverse

/-- Nothing is left out up to a character that does not satisfy `p`. -/
theorem dropEndWhile_append_cons {p : Char → Bool} {c : Char} (h : p c = false) (before after : List Char) :
    dropEndWhile p (before ++ c :: after) = before ++ c :: dropEndWhile p after := by
  have kept : (c :: before.reverse).dropWhile p = c :: before.reverse := List.dropWhile_cons_of_neg (by simp [h])
  have turned : (before ++ c :: after).reverse = after.reverse ++ c :: before.reverse := by simp
  rw [dropEndWhile, dropEndWhile, turned, List.dropWhile_append, kept]
  split
  · next none => simp [List.isEmpty_iff.mp none]
  · simp

/-- Leaves out the white space at the end. -/
def trimEnd (text : List Char) : List Char :=
  dropEndWhile isBlank text

end Polish
