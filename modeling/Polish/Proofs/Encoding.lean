import Mathlib
import Polish.Proofs.Decoding

/-! Text as bytes. A byte below 0x80 is read as a character of its own wherever it stands, so what is in front of it
    and what is behind it may be read apart. Text that was written is read as it was, and a character is read only
    where it is written or where bytes are no text. -/

namespace Polish.Utf8

/-! ### Bytes below 0x80 -/

/-- No sequence goes on with a byte below 0x80. -/
def Wide (pending : Option Pending) : Prop :=
  ∀ begun ∈ pending, 0x80 ≤ begun.low

section
variable {pending : Option Pending} {b : UInt8}

theorem wide_none : Wide none := nofun

theorem wide_lead {begun : Pending} (h : lead? b = some begun) : 0x80 ≤ begun.low := by
  unfold lead? at h
  split at h
  · cases h
  split at h
  · rw [← Option.some.inj h]
    exact UInt8.le_refl _
  split at h
  · rw [← Option.some.inj h]
    dsimp only
    split <;> decide
  split at h
  · rw [← Option.some.inj h]
    dsimp only
    split <;> decide
  · cases h

theorem wide_start (b : UInt8) : Wide (start b).2 := by
  unfold start
  split
  · exact wide_none
  · split
    · next lead =>
      rintro _ ⟨⟩
      exact wide_lead lead
    · exact wide_none

theorem wide_step (pending : Option Pending) (b : UInt8) : Wide (step pending b).2 := by
  unfold step
  split
  · exact wide_start b
  · split
    · split
      · exact wide_none
      · intro begun h
        rw [← Option.some.inj h]
        exact UInt8.le_refl _
    · exact wide_start b

/-- A sequence that is not finished is read as a replacement in front of such a byte, as at the end. -/
theorem step_of_lt (wide : Wide pending) (h : b < 0x80) :
    step pending b = (decodeFrom pending [] ++ [Char.ofNat b.toNat], none) := by
  have begins : start b = ([Char.ofNat b.toNat], none) := if_pos h
  cases pending with
  | none => exact begins
  | some begun =>
    have low : 0x80 ≤ begun.low := wide begun rfl
    have outside : (begun.low ≤ b && b ≤ begun.high) = false := by
      rw [UInt8.le_iff_toNat_le] at low
      rw [UInt8.lt_iff_toNat_lt] at h
      simp only [Bool.and_eq_false_iff, decide_eq_false_iff_not, UInt8.le_iff_toNat_le]
      omega
    simp only [step, outside, begins]
    rfl

theorem decodeFrom_append_of_lt (wide : Wide pending) (h : b < 0x80) (front back : List UInt8) :
    decodeFrom pending (front ++ b :: back) = decodeFrom pending front ++ Char.ofNat b.toNat :: decode back := by
  induction front generalizing pending with
  | nil =>
    -- The byte breaks off what is pending, so what follows it is read afresh.
    change (step pending b).1 ++ decodeFrom (step pending b).2 back = _
    rw [step_of_lt wide h, List.append_assoc]
    rfl
  | cons first front ih =>
    rw [List.cons_append, decodeFrom, ih (wide_step pending first), decodeFrom, List.append_assoc]

theorem decode_append_of_lt (h : b < 0x80) (front back : List UInt8) :
    decode (front ++ b :: back) = decode front ++ Char.ofNat b.toNat :: decode back :=
  decodeFrom_append_of_lt wide_none h front back

end

/-! ### What was written -/

section
variable {a b c d : UInt8} {begun : Pending} {bytes : List UInt8}

theorem decode_of_lead (h : lead? a = some begun) : decode (a :: bytes) = decodeFrom (some begun) bytes := by
  have large : ¬a < 0x80 := by
    intro small
    rw [lead?, if_pos (UInt8.lt_trans small (by decide))] at h
    cases h
  have begins : start a = ([], some begun) := by
    rw [start, if_neg large, h]
  rw [decode, decodeFrom, step, begins]
  rfl

theorem decodeFrom_last {payload : Nat} {low high : UInt8} (hb : low ≤ b ∧ b ≤ high) :
    decodeFrom (some ⟨payload, low, high, 0⟩) (b :: bytes) =
      Char.ofNat (payload * 64 + (b.toNat - 0x80)) :: decode bytes := by
  have within : (low ≤ b && b ≤ high) = true := by simpa using hb
  simp only [decodeFrom, step, within, ↓reduceIte]
  rfl

theorem decodeFrom_more {payload more : Nat} {low high : UInt8} (hb : low ≤ b ∧ b ≤ high) :
    decodeFrom (some ⟨payload, low, high, more + 1⟩) (b :: bytes) =
      decodeFrom (some ⟨payload * 64 + (b.toNat - 0x80), 0x80, 0xBF, more⟩) bytes := by
  have within : (low ≤ b && b ≤ high) = true := by simpa using hb
  simp only [decodeFrom, step, within, ↓reduceIte]
  rfl

theorem decode_one (ha : a.toNat < 0x80) : decode (a :: bytes) = Char.ofNat a.toNat :: decode bytes :=
  decode_append_of_lt (UInt8.lt_iff_toNat_lt.mpr ha) [] bytes

theorem decode_two (ha : 0xC2 ≤ a.toNat ∧ a.toNat < 0xE0) (hb : 0x80 ≤ b.toNat ∧ b.toNat ≤ 0xBF) :
    decode (a :: b :: bytes) = Char.ofNat ((a.toNat - 0xC0) * 64 + (b.toNat - 0x80)) :: decode bytes := by
  have lead : lead? a = some ⟨a.toNat - 0xC0, 0x80, 0xBF, 0⟩ := by
    simp only [lead?, UInt8.lt_iff_toNat_lt, UInt8.reduceToNat]
    rw [if_neg (by omega), if_pos (by omega)]
  rw [decode_of_lead lead, decodeFrom_last]
  exact hb

theorem decode_three (ha : 0xE0 ≤ a.toNat ∧ a.toNat < 0xF0) (hb : 0x80 ≤ b.toNat ∧ b.toNat ≤ 0xBF)
    (low : a.toNat = 0xE0 → 0xA0 ≤ b.toNat) (high : a.toNat = 0xED → b.toNat ≤ 0x9F)
    (hc : 0x80 ≤ c.toNat ∧ c.toNat ≤ 0xBF) :
    decode (a :: b :: c :: bytes) =
      Char.ofNat (((a.toNat - 0xE0) * 64 + (b.toNat - 0x80)) * 64 + (c.toNat - 0x80)) :: decode bytes := by
  have lead : lead? a =
      some ⟨a.toNat - 0xE0, if a = 0xE0 then 0xA0 else 0x80, if a = 0xED then 0x9F else 0xBF, 1⟩ := by
    simp only [lead?, UInt8.lt_iff_toNat_lt, UInt8.reduceToNat]
    rw [if_neg (by omega), if_neg (by omega), if_pos (by omega)]
  rw [decode_of_lead lead, decodeFrom_more, decodeFrom_last]
  · exact hc
  · simp only [← UInt8.toNat_inj, UInt8.le_iff_toNat_le, apply_ite UInt8.toNat, UInt8.reduceToNat]
    constructor <;> split <;> omega

theorem decode_four (ha : 0xF0 ≤ a.toNat ∧ a.toNat < 0xF5) (hb : 0x80 ≤ b.toNat ∧ b.toNat ≤ 0xBF)
    (low : a.toNat = 0xF0 → 0x90 ≤ b.toNat) (high : a.toNat = 0xF4 → b.toNat ≤ 0x8F)
    (hc : 0x80 ≤ c.toNat ∧ c.toNat ≤ 0xBF) (hd : 0x80 ≤ d.toNat ∧ d.toNat ≤ 0xBF) :
    decode (a :: b :: c :: d :: bytes) =
      Char.ofNat ((((a.toNat - 0xF0) * 64 + (b.toNat - 0x80)) * 64 + (c.toNat - 0x80)) * 64 + (d.toNat - 0x80)) ::
        decode bytes := by
  have lead : lead? a =
      some ⟨a.toNat - 0xF0, if a = 0xF0 then 0x90 else 0x80, if a = 0xF4 then 0x8F else 0xBF, 2⟩ := by
    simp only [lead?, UInt8.lt_iff_toNat_lt, UInt8.reduceToNat]
    rw [if_neg (by omega), if_neg (by omega), if_neg (by omega), if_pos (by omega)]
  rw [decode_of_lead lead, decodeFrom_more, decodeFrom_more, decodeFrom_last]
  · exact hd
  · exact hc
  · simp only [← UInt8.toNat_inj, UInt8.le_iff_toNat_le, apply_ite UInt8.toNat, UInt8.reduceToNat]
    constructor <;> split <;> omega

end

theorem toNat_of_ofNat_eq {n : Nat} {b : UInt8} (h : UInt8.ofNat n = b) : b.toNat = n % 256 := by
  rw [← h, UInt8.toNat_ofNat']

/-- Behind a character that was written, reading begins afresh. -/
theorem decode_encodeChar_append (c : Char) (bytes : List UInt8) :
    decode (String.utf8EncodeChar c ++ bytes) = c :: decode bytes := by
  have whole : Char.ofNat c.val.toNat = c := Char.ofNat_toNat c
  have scalar : c.val.toNat.isValidChar := c.valid
  simp only [String.utf8EncodeChar, Nat.isValidChar] at scalar ⊢
  -- One case for each number of bytes. The bytes get names, so that arithmetic is left with numbers alone.
  generalize c.val.toNat = n at whole scalar
  split_ifs with one two three
  · generalize ha : UInt8.ofNat n = a
    have ha := toNat_of_ofNat_eq ha
    have value : a.toNat = n := by omega
    rw [List.singleton_append, decode_one (by omega), value, whole]
  · generalize ha : UInt8.ofNat (n / 64 % 32 + 192) = a, hb : UInt8.ofNat (n % 64 + 128) = b
    have ha := toNat_of_ofNat_eq ha
    have hb := toNat_of_ofNat_eq hb
    have value : (a.toNat - 0xC0) * 64 + (b.toNat - 0x80) = n := by omega
    rw [List.cons_append, List.singleton_append, decode_two (by omega) (by omega), value, whole]
  · generalize ha : UInt8.ofNat (n / 4096 % 16 + 224) = a, hb : UInt8.ofNat (n / 64 % 64 + 128) = b,
      hc : UInt8.ofNat (n % 64 + 128) = c
    have ha := toNat_of_ofNat_eq ha
    have hb := toNat_of_ofNat_eq hb
    have hc := toNat_of_ofNat_eq hc
    have value : ((a.toNat - 0xE0) * 64 + (b.toNat - 0x80)) * 64 + (c.toNat - 0x80) = n := by omega
    rw [List.cons_append, List.cons_append, List.singleton_append,
      decode_three (by omega) (by omega) (by omega) (by omega) (by omega), value, whole]
  · generalize ha : UInt8.ofNat (n / 262144 % 8 + 240) = a, hb : UInt8.ofNat (n / 4096 % 64 + 128) = b,
      hc : UInt8.ofNat (n / 64 % 64 + 128) = c, hd : UInt8.ofNat (n % 64 + 128) = d
    have ha := toNat_of_ofNat_eq ha
    have hb := toNat_of_ofNat_eq hb
    have hc := toNat_of_ofNat_eq hc
    have hd := toNat_of_ofNat_eq hd
    have value : (((a.toNat - 0xF0) * 64 + (b.toNat - 0x80)) * 64 + (c.toNat - 0x80)) * 64 + (d.toNat - 0x80) = n := by
      omega
    rw [List.cons_append, List.cons_append, List.cons_append, List.singleton_append,
      decode_four (by omega) (by omega) (by omega) (by omega) (by omega) (by omega), value, whole]

theorem decode_encode_append (text : List Char) (bytes : List UInt8) :
    decode (encode text ++ bytes) = text ++ decode bytes := by
  induction text with
  | nil => rfl
  | cons c text ih =>
    have first : encode (c :: text) = String.utf8EncodeChar c ++ encode text := List.flatMap_cons
    rw [first, List.append_assoc, decode_encodeChar_append, ih, List.cons_append]

theorem decode_encode (text : List Char) : decode (encode text) = text := by
  have alone := decode_encode_append text []
  rw [List.append_nil] at alone
  exact alone.trans (List.append_nil text)

/-- A byte below 0x80 is only written for the character that it is read as. -/
theorem mem_of_mem_encode {text : List Char} {b : UInt8} (h : b < 0x80) (mem : b ∈ encode text) :
    Char.ofNat b.toNat ∈ text := by
  obtain ⟨front, back, split⟩ := List.append_of_mem mem
  have read := decode_append_of_lt h front back
  rw [← split, decode_encode] at read
  rw [read]
  exact List.mem_append_right _ List.mem_cons_self

/-! ### What is read -/

section
variable {front bytes : List UInt8} {pending : Option Pending} {b : UInt8} {c : Char}

/-- The character stands among the bytes as it is written, or it stands for bytes that are no text. -/
def Attested (bytes : List UInt8) (c : Char) : Prop :=
  c = replacement ∨ String.utf8EncodeChar c <:+: bytes

theorem Attested.mono {more : List UInt8} (h : Attested bytes c) (part : bytes <:+: more) : Attested more c :=
  h.imp_right (·.trans part)

theorem attested_start (b : UInt8) :
    ∃ next, Held next (start b).2 ∧ next <:+ [b] ∧ ∀ c ∈ (start b).1, Attested [b] c := by
  unfold start
  split
  · next small =>
    refine ⟨[], rfl, List.nil_suffix, List.forall_mem_singleton.mpr (Or.inr ?_)⟩
    rw [encodeChar_one (UInt8.lt_iff_toNat_lt.mp small)]
  · split
    · next lead => exact ⟨[b], held_lead lead, List.suffix_rfl, nofun⟩
    · exact ⟨[], rfl, List.nil_suffix, List.forall_mem_singleton.mpr (Or.inl rfl)⟩

theorem attested_step (held : Held front pending) (b : UInt8) :
    ∃ next, Held next (step pending b).2 ∧ next <:+ front ++ [b] ∧ ∀ c ∈ (step pending b).1, Attested (front ++ [b]) c := by
  obtain ⟨afresh, begun, part, chars⟩ := attested_start b
  have last : [b] <:+ front ++ [b] := List.suffix_append front [b]
  have later : ∀ c ∈ (start b).1, Attested (front ++ [b]) c := fun c mem => (chars c mem).mono last.isInfix
  cases pending with
  | none => exact ⟨afresh, begun, part.trans last, later⟩
  | some pending =>
    obtain ⟨payload, low, high, more⟩ := pending
    simp only [step]
    split
    · next within =>
      obtain ⟨hlow, hhigh⟩ : low ≤ b ∧ b ≤ high := by simpa using within
      cases more with
      | zero =>
        refine ⟨[], rfl, List.nil_suffix, List.forall_mem_singleton.mpr (Or.inr ?_)⟩
        rw [held b hlow hhigh]
      | succ more => exact ⟨front ++ [b], held b hlow hhigh, List.suffix_rfl, List.forall_mem_nil _⟩
    · exact ⟨afresh, begun, part.trans last, List.forall_mem_cons.mpr ⟨Or.inl rfl, later⟩⟩

theorem attested_of_mem_decodeFrom (held : Held front pending) (mem : c ∈ decodeFrom pending bytes) :
    Attested (front ++ bytes) c := by
  induction bytes generalizing front pending with
  | nil =>
    rw [decodeFrom] at mem
    split at mem
    · exact Or.inl (List.mem_singleton.mp mem)
    · cases mem
  | cons b bytes ih =>
    obtain ⟨next, held, part, chars⟩ := attested_step held b
    have whole : front ++ b :: bytes = front ++ [b] ++ bytes := List.append_cons front b bytes
    rw [whole]
    rcases List.mem_append.mp mem with here | later
    · exact (chars c here).mono (List.prefix_append _ bytes).isInfix
    · obtain ⟨before, split⟩ := part
      refine (ih held later).mono ⟨before, [], ?_⟩
      rw [List.append_nil, ← List.append_assoc, split]

/-- Every character that is read is attested, so none is made of the parts of others. -/
theorem attested_of_mem_decode (mem : c ∈ decode bytes) : Attested bytes c :=
  attested_of_mem_decodeFrom held_none mem

theorem decode_eq_nil_iff : decode bytes = [] ↔ bytes = [] := by
  refine ⟨fun empty => ?_, fun empty => empty ▸ rfl⟩
  have clean : replacement ∉ decode bytes := empty ▸ List.not_mem_nil
  have same : encode (decode bytes) = bytes := encode_decodeFrom held_none clean
  rw [← same, empty, encode_nil]

theorem encode_decode_eq_nil_iff : encode (decode bytes) = [] ↔ bytes = [] := by
  rw [← decode_eq_nil_iff, decode_encode, decode_eq_nil_iff]

end

end Polish.Utf8
