import Mathlib
import Polish.Text.Utf8

/-! Bytes that are text. Bytes that are read without a replacement are written again as they were, so bytes that
    are no text are never read without one. -/

namespace Polish.Utf8

/-- The bytes are those of a text. -/
def Valid (bytes : List UInt8) : Prop :=
  ∃ text, encode text = bytes

theorem toNat_ofNat {n : Nat} (h : n.isValidChar) : (Char.ofNat n).val.toNat = n := by
  rw [Char.ofNat, dif_pos h]
  exact UInt32.toNat_ofNatLT

theorem ofNat_eq {n : Nat} {b : UInt8} (h : n = b.toNat) : UInt8.ofNat n = b := by
  rw [h, UInt8.ofNat_toNat]

section
variable {a b c d : UInt8}

theorem encodeChar_one (ha : a.toNat < 0x80) : String.utf8EncodeChar (Char.ofNat a.toNat) = [a] := by
  have scalar : a.toNat.isValidChar := Or.inl (by omega)
  rw [String.utf8EncodeChar, toNat_ofNat scalar, if_pos (by omega), UInt8.ofNat_toNat]

theorem encodeChar_two (ha : 0xC2 ≤ a.toNat ∧ a.toNat < 0xE0) (hb : 0x80 ≤ b.toNat ∧ b.toNat ≤ 0xBF) :
    String.utf8EncodeChar (Char.ofNat ((a.toNat - 0xC0) * 64 + (b.toNat - 0x80))) = [a, b] := by
  generalize hn : (a.toNat - 0xC0) * 64 + (b.toNat - 0x80) = n
  have scalar : n.isValidChar := Or.inl (by omega)
  rw [String.utf8EncodeChar, toNat_ofNat scalar, if_neg (by omega), if_pos (by omega),
    ofNat_eq (b := a) (by omega), ofNat_eq (b := b) (by omega)]

theorem encodeChar_three (ha : 0xE0 ≤ a.toNat ∧ a.toNat < 0xF0) (hb : 0x80 ≤ b.toNat ∧ b.toNat ≤ 0xBF)
    (low : a.toNat = 0xE0 → 0xA0 ≤ b.toNat) (high : a.toNat = 0xED → b.toNat ≤ 0x9F)
    (hc : 0x80 ≤ c.toNat ∧ c.toNat ≤ 0xBF) :
    String.utf8EncodeChar
      (Char.ofNat (((a.toNat - 0xE0) * 64 + (b.toNat - 0x80)) * 64 + (c.toNat - 0x80))) = [a, b, c] := by
  generalize hn : ((a.toNat - 0xE0) * 64 + (b.toNat - 0x80)) * 64 + (c.toNat - 0x80) = n
  have scalar : n.isValidChar := by unfold Nat.isValidChar; omega
  rw [String.utf8EncodeChar, toNat_ofNat scalar, if_neg (by omega), if_neg (by omega), if_pos (by omega),
    ofNat_eq (b := a) (by omega), ofNat_eq (b := b) (by omega), ofNat_eq (b := c) (by omega)]

theorem encodeChar_four (ha : 0xF0 ≤ a.toNat ∧ a.toNat < 0xF5) (hb : 0x80 ≤ b.toNat ∧ b.toNat ≤ 0xBF)
    (low : a.toNat = 0xF0 → 0x90 ≤ b.toNat) (high : a.toNat = 0xF4 → b.toNat ≤ 0x8F)
    (hc : 0x80 ≤ c.toNat ∧ c.toNat ≤ 0xBF) (hd : 0x80 ≤ d.toNat ∧ d.toNat ≤ 0xBF) :
    String.utf8EncodeChar
      (Char.ofNat ((((a.toNat - 0xF0) * 64 + (b.toNat - 0x80)) * 64 + (c.toNat - 0x80)) * 64 + (d.toNat - 0x80))) =
        [a, b, c, d] := by
  generalize hn : (((a.toNat - 0xF0) * 64 + (b.toNat - 0x80)) * 64 + (c.toNat - 0x80)) * 64 + (d.toNat - 0x80) = n
  have scalar : n.isValidChar := by unfold Nat.isValidChar; omega
  rw [String.utf8EncodeChar, toNat_ofNat scalar, if_neg (by omega), if_neg (by omega), if_neg (by omega),
    ofNat_eq (b := a) (by omega), ofNat_eq (b := b) (by omega), ofNat_eq (b := c) (by omega),
    ofNat_eq (b := d) (by omega)]

end

/-- However a sequence is finished, its character is written as the bytes in front and those that finish it. -/
def Finishes (front : List UInt8) (payload : Nat) (low high : UInt8) : Nat → Prop
  | 0 => ∀ b, low ≤ b → b ≤ high →
    String.utf8EncodeChar (Char.ofNat (payload * 64 + (b.toNat - 0x80))) = front ++ [b]
  | more + 1 => ∀ b, low ≤ b → b ≤ high → Finishes (front ++ [b]) (payload * 64 + (b.toNat - 0x80)) 0x80 0xBF more

/-- The bytes in front are those of the sequence that has been begun. -/
def Held (front : List UInt8) : Option Pending → Prop
  | none => front = []
  | some ⟨payload, low, high, more⟩ => Finishes front payload low high more

theorem held_none : Held [] none := rfl

theorem held_lead {a : UInt8} {pending : Pending} (h : lead? a = some pending) : Held [a] (some pending) := by
  simp only [lead?, UInt8.lt_iff_toNat_lt, ← UInt8.toNat_inj, UInt8.reduceToNat] at h
  split at h
  · cases h
  split at h
  · obtain rfl := Option.some.inj h
    intro b hb hb'
    rw [UInt8.le_iff_toNat_le] at hb hb'
    exact encodeChar_two (by omega) ⟨hb, hb'⟩
  split at h
  · obtain rfl := Option.some.inj h
    intro b hb hb' c hc hc'
    rw [UInt8.le_iff_toNat_le] at hb hb' hc hc'
    simp only [apply_ite UInt8.toNat, UInt8.reduceToNat] at hb hb'
    have low : 0x80 ≤ b.toNat ∧ (a.toNat = 0xE0 → 0xA0 ≤ b.toNat) := by split at hb <;> omega
    have high : b.toNat ≤ 0xBF ∧ (a.toNat = 0xED → b.toNat ≤ 0x9F) := by split at hb' <;> omega
    exact encodeChar_three (by omega) ⟨low.1, high.1⟩ low.2 high.2 ⟨hc, hc'⟩
  split at h
  · obtain rfl := Option.some.inj h
    intro b hb hb' c hc hc' d hd hd'
    rw [UInt8.le_iff_toNat_le] at hb hb' hc hc' hd hd'
    simp only [apply_ite UInt8.toNat, UInt8.reduceToNat] at hb hb'
    have low : 0x80 ≤ b.toNat ∧ (a.toNat = 0xF0 → 0x90 ≤ b.toNat) := by split at hb <;> omega
    have high : b.toNat ≤ 0xBF ∧ (a.toNat = 0xF4 → b.toNat ≤ 0x8F) := by split at hb' <;> omega
    exact encodeChar_four (by omega) ⟨low.1, high.1⟩ low.2 high.2 ⟨hc, hc'⟩ ⟨hd, hd'⟩
  · cases h

section
variable {front bytes : List UInt8} {pending : Option Pending} {b : UInt8}

theorem held_start (clean : replacement ∉ (start b).1) :
    ∃ next, Held next (start b).2 ∧ encode (start b).1 ++ next = [b] := by
  unfold start at clean ⊢
  split
  · next small =>
    refine ⟨[], rfl, ?_⟩
    rw [List.append_nil]
    exact (List.flatMap_singleton ..).trans (encodeChar_one (UInt8.lt_iff_toNat_lt.mp small))
  · next large =>
    rw [if_neg large] at clean
    split at clean
    · next lead => exact ⟨[b], by simpa only [lead] using held_lead lead, rfl⟩
    · exact absurd (List.mem_singleton_self _) clean

/-- Unless a replacement is read, one more byte loses nothing. -/
theorem held_step (held : Held front pending) (clean : replacement ∉ (step pending b).1) :
    ∃ next, Held next (step pending b).2 ∧ encode (step pending b).1 ++ next = front ++ [b] := by
  cases pending with
  | none =>
    obtain rfl : front = [] := held
    exact held_start clean
  | some pending =>
    obtain ⟨payload, low, high, more⟩ := pending
    simp only [step] at clean ⊢
    split
    · next within =>
      obtain ⟨hlow, hhigh⟩ : low ≤ b ∧ b ≤ high := by simpa using within
      cases more with
      | zero =>
        refine ⟨[], rfl, ?_⟩
        rw [List.append_nil]
        exact (List.flatMap_singleton ..).trans (held b hlow hhigh)
      | succ more => exact ⟨front ++ [b], held b hlow hhigh, rfl⟩
    · next outside =>
      rw [if_neg outside] at clean
      exact absurd List.mem_cons_self clean

theorem encode_decodeFrom (held : Held front pending) (clean : replacement ∉ decodeFrom pending bytes) :
    encode (decodeFrom pending bytes) = front ++ bytes := by
  -- The bytes in front are those which have been read and not yet become a character.
  induction bytes generalizing front pending with
  | nil =>
    cases pending with
    | none =>
      obtain rfl : front = [] := held
      rfl
    | some => exact absurd (List.mem_singleton_self _) clean
  | cons b bytes ih =>
    rw [decodeFrom] at clean ⊢
    obtain ⟨here, later⟩ := not_or.mp (mt List.mem_append.mpr clean)
    obtain ⟨next, held, heq⟩ := held_step held here
    rw [encode_append, ih held later, ← List.append_assoc, heq, List.append_assoc]
    rfl

/-- Where bytes are no text, a replacement is read. -/
theorem replacement_mem_decode (invalid : ¬Valid bytes) : replacement ∈ decode bytes := by
  by_contra clean
  exact invalid ⟨_, encode_decodeFrom held_none clean⟩

end

/-- No character is written with a byte from 0xF8 on. -/
theorem lt_of_mem_encode {text : List Char} {b : UInt8} (h : b ∈ encode text) : b < 0xF8 := by
  obtain ⟨c, -, hb⟩ := List.mem_flatMap.mp h
  have small : c.val.toNat < 0x110000 := by
    rcases c.valid with h | h <;> omega
  simp only [String.utf8EncodeChar] at hb
  simp only [UInt8.lt_iff_toNat_lt, UInt8.reduceToNat]
  -- One case for each number of bytes; only the first byte of four comes near the bound.
  split_ifs at hb <;> simp only [List.mem_cons, List.not_mem_nil, or_false] at hb
  · rw [hb, UInt8.toNat_ofNat']
    omega
  · rcases hb with rfl | rfl <;> rw [UInt8.toNat_ofNat'] <;> omega
  · rcases hb with rfl | rfl | rfl <;> rw [UInt8.toNat_ofNat'] <;> omega
  · rcases hb with rfl | rfl | rfl | rfl <;> rw [UInt8.toNat_ofNat'] <;> omega

end Polish.Utf8
