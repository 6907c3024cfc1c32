/-! UTF-8: the bytes of a text, its size in bytes, and the reading of arbitrary bytes.

    Reading takes one byte at a time. Bytes that begin a sequence and cannot be completed, and bytes
    that begin none, are read as the replacement character, one for each longest such run; the byte
    that breaks a sequence off is read afresh. -/

namespace Polish.Utf8

/-- The number of bytes of a text. -/
def size (text : List Char) : Nat :=
  text.foldr (fun c bytes => c.utf8Size + bytes) 0

@[simp] theorem size_nil : size [] = 0 := rfl

@[simp] theorem size_cons (c : Char) (text : List Char) : size (c :: text) = c.utf8Size + size text := rfl

@[simp] theorem size_append (a b : List Char) : size (a ++ b) = size a + size b := by
  induction a with
  | nil => simp
  | cons c a ih => rw [List.cons_append, size_cons, size_cons, ih, Nat.add_assoc]

theorem size_le_append (a b : List Char) : size a ≤ size (a ++ b) := by
  rw [size_append]
  exact Nat.le_add_right _ _

/-- What follows the first `bytes` bytes of a text; nothing if they end inside a character or the text
    is shorter. -/
def drop? : Nat → List Char → Option (List Char)
  | 0, text => some text
  | _ + 1, [] => none
  | bytes + 1, c :: text =>
    if c.utf8Size ≤ bytes + 1 then drop? (bytes + 1 - c.utf8Size) text else none

theorem drop?_size_append (a b : List Char) : drop? (size a) (a ++ b) = some b := by
  induction a with
  | nil => simp [drop?]
  | cons c a ih =>
    obtain ⟨n, hn⟩ : ∃ n, c.utf8Size + size a = n + 1 :=
      ⟨c.utf8Size + size a - 1, by have := c.utf8Size_pos; omega⟩
    rw [size_cons, List.cons_append, hn, drop?, ← hn, if_pos (Nat.le_add_right _ _), Nat.add_sub_cancel_left, ih]

/-- The bytes of a text. -/
def encode (text : List Char) : List UInt8 :=
  text.flatMap String.utf8EncodeChar

@[simp] theorem encode_nil : encode [] = [] := rfl

@[simp] theorem encode_append (a b : List Char) : encode (a ++ b) = encode a ++ encode b :=
  List.flatMap_append

/-- What a sequence still needs after the bytes read so far: the range of the next byte and how many
    follow that one, each of these from 0x80 to 0xBF. `payload` holds the bits read so far. -/
structure Pending where
  payload : Nat
  low : UInt8
  high : UInt8
  more : Nat

/-- What a lead byte from 0xC2 to 0xF4 begins; the narrower ranges after 0xE0, 0xED, 0xF0 and 0xF4
    leave out longer forms, surrogates and numbers above 0x10FFFF. -/
def lead? (b : UInt8) : Option Pending :=
  if b < 0xC2 then none
  else if b < 0xE0 then some ⟨b.toNat - 0xC0, 0x80, 0xBF, 0⟩
  else if b < 0xF0 then
    some ⟨b.toNat - 0xE0, if b = 0xE0 then 0xA0 else 0x80, if b = 0xED then 0x9F else 0xBF, 1⟩
  else if b < 0xF5 then
    some ⟨b.toNat - 0xF0, if b = 0xF0 then 0x90 else 0x80, if b = 0xF4 then 0x8F else 0xBF, 2⟩
  else none

/-- Stands for bytes that are no text. -/
def replacement : Char := '\ufffd'

/-- Reads a byte at which a character begins. -/
def start (b : UInt8) : List Char × Option Pending :=
  if b < 0x80 then ([Char.ofNat b.toNat], none)
  else
    match lead? b with
    | some pending => ([], some pending)
    | none => ([replacement], none)

/-- Reads a byte after those of an unfinished sequence, if there is one. -/
def step (pending : Option Pending) (b : UInt8) : List Char × Option Pending :=
  match pending with
  | none => start b
  | some ⟨payload, low, high, more⟩ =>
    if low ≤ b && b ≤ high then
      let payload := payload * 64 + (b.toNat - 0x80)
      match more with
      | 0 => ([Char.ofNat payload], none)
      | more + 1 => ([], some ⟨payload, 0x80, 0xBF, more⟩)
    else
      let (text, pending) := start b
      (replacement :: text, pending)

/-- Reads bytes that follow an unfinished sequence, if there is one. -/
def decodeFrom (pending : Option Pending) : List UInt8 → List Char
  | [] => if pending.isSome then [replacement] else []
  | b :: bytes => (step pending b).1 ++ decodeFrom (step pending b).2 bytes

/-- Reads arbitrary bytes as text. -/
def decode (bytes : List UInt8) : List Char :=
  decodeFrom none bytes

end Polish.Utf8
