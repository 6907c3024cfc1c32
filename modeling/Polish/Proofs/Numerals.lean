import Mathlib
import Polish.Proofs.Printing

/-! Numerals: texts of digits and nothing else. However long a numeral is, it is one integer of its value as long as
    64 bits hold that, and is written anew without the zeros that it begins with. It is its value that decides, and
    not its length. -/

namespace Polish

variable {digits : List Char} {label : String}

/-! ### Values -/

/-- What a digit stands for. -/
def digitValue (digit : Char) : Nat :=
  digit.toNat - '0'.toNat

theorem digitValue_lt {digit : Char} (h : digit.isDigit = true) :
    digitValue digit < 10 ∧ Nat.digitChar (digitValue digit) = digit := by
  simp only [Char.isDigit, Bool.and_eq_true, decide_eq_true_eq, ge_iff_le, UInt32.le_iff_toNat_le] at h
  have low : 48 ≤ digit.toNat := h.1
  have high : digit.toNat ≤ 57 := h.2
  have zero : '0'.toNat = 48 := rfl
  have small : digitValue digit < 10 := by rw [digitValue, zero]; omega
  refine ⟨small, Char.toNat_inj.mp ?_⟩
  rw [Nat.toNat_digitChar_of_lt_ten small, digitValue, zero]
  omega

theorem decimal_concat (digits : List Char) (digit : Char) :
    decimal (digits ++ [digit]) = decimal digits * 10 + digitValue digit :=
  List.foldl_concat ..

/-- The last digit counts once, the one before it ten times, and so on. -/
theorem decimal_eq_ofDigits (digits : List Char) :
    decimal digits = Nat.ofDigits 10 (digits.reverse.map digitValue) := by
  induction digits using List.reverseRecOn with
  | nil => rfl
  | append_singleton digits digit ih =>
    rw [decimal_concat, ih, List.reverse_concat, List.map_cons, Nat.ofDigits_cons]
    omega

/-! ### Reading in 64 bits -/

/-- The number, if 64 bits hold it. -/
def int64? (number : Int) : Option Int64 :=
  if Int64.minValue.toInt ≤ number ∧ number ≤ Int64.maxValue.toInt then some (Int64.ofInt number) else none

/-- Puts one more digit behind a number. The product and the sum are each checked. -/
def appendDigit? (value : Int64) (digit : Char) : Option Int64 := do
  let tenfold ← int64? (value.toInt * 10)
  int64? (tenfold.toInt + digitValue digit)

/-- Reads digits one after another, and stops where 64 bits do not hold the number any more. -/
def readChecked? (digits : List Char) : Option Int64 :=
  digits.foldlM appendDigit? 0

theorem int64?_natCast (number : Nat) :
    int64? number = if number ≤ Int64.maxValue.toNatClampNeg then some (Int64.ofNat number) else none := by
  have high : Int64.maxValue.toInt = Int64.maxValue.toNatClampNeg := by decide
  have low : Int64.minValue.toInt ≤ number := le_trans (by decide) (Int.natCast_nonneg number)
  simp only [int64?, low, high, true_and, Int.ofNat_le, Int64.ofInt_eq_ofNat]

theorem toInt_ofNat_of_le {number : Nat} (h : number ≤ Int64.maxValue.toNatClampNeg) :
    (Int64.ofNat number).toInt = number :=
  Int64.toInt_ofNat_of_lt (Nat.lt_of_le_of_lt h (by decide))

/-- The steps may be checked or the whole: more digits never make a number smaller. -/
theorem readChecked?_eq (digits : List Char) :
    readChecked? digits =
      if decimal digits ≤ Int64.maxValue.toNatClampNeg then some (Int64.ofNat (decimal digits)) else none := by
  induction digits using List.reverseRecOn with
  | nil => rfl
  | append_singleton digits digit ih =>
    have step : readChecked? (digits ++ [digit]) = readChecked? digits >>= (appendDigit? · digit) := by
      simp only [readChecked?, List.foldlM_append, List.foldlM_cons, List.foldlM_nil, bind_pure]
    rw [step, ih, decimal_concat]
    by_cases whole : decimal digits ≤ Int64.maxValue.toNatClampNeg
    · have tenfold : int64? ((decimal digits : Int) * 10) = _ := int64?_natCast (decimal digits * 10)
      rw [if_pos whole, Option.bind_eq_bind, Option.bind_some, appendDigit?, toInt_ofNat_of_le whole, tenfold]
      by_cases product : decimal digits * 10 ≤ Int64.maxValue.toNatClampNeg
      · rw [if_pos product, Option.bind_eq_bind, Option.bind_some, toInt_ofNat_of_le product, ← Nat.cast_add,
          int64?_natCast]
      · rw [if_neg product, if_neg (by omega)]
        rfl
    · -- A number that is too large stays too large, whatever digit is put behind it.
      rw [if_neg whole, if_neg (by omega)]
      rfl

/-! ### Zeros in front -/

/-- The digits without the zeros in front. If all of them are zeros, one is left. -/
def trimZeros (digits : List Char) : List Char :=
  match digits.dropWhile (· = '0') with
  | [] => ['0']
  | rest => rest

theorem trimZeros_zero (digits : List Char) : trimZeros ('0' :: digits) = trimZeros digits := by
  rw [trimZeros, List.dropWhile_cons_of_pos (by decide), ← trimZeros]

theorem trimZeros_of_ne {digit : Char} (h : digit ≠ '0') (digits : List Char) :
    trimZeros (digit :: digits) = digit :: digits := by
  rw [trimZeros, List.dropWhile_cons_of_neg (by simpa using h)]

theorem toDigits_foldl {number : Nat} (pos : 0 < number) (h : ∀ c ∈ digits, c.isDigit = true) :
    Nat.toDigits 10 (digits.foldl (fun number digit => number * 10 + digitValue digit) number) =
      Nat.toDigits 10 number ++ digits := by
  induction digits generalizing number with
  | nil => rw [List.foldl_nil, List.append_nil]
  | cons digit digits ih =>
    obtain ⟨hd, h⟩ := List.forall_mem_cons.mp h
    obtain ⟨small, char⟩ := digitValue_lt hd
    rw [List.foldl_cons, ih (by omega) h, Nat.mul_comm, ← Nat.toDigits_append_toDigits (by decide) pos small,
      Nat.toDigits_of_lt_base small, char, List.append_assoc, List.singleton_append]

/-- A number is written with the digits that it was read from, but for the zeros in front. -/
theorem toDigits_decimal (h : ∀ c ∈ digits, c.isDigit = true) :
    Nat.toDigits 10 (decimal digits) = trimZeros digits := by
  induction digits with
  | nil => rfl
  | cons digit digits ih =>
    obtain ⟨hd, others⟩ := List.forall_mem_cons.mp h
    by_cases zero : digit = '0'
    · rw [zero, trimZeros_zero, ← ih others]
      rfl
    · obtain ⟨small, char⟩ := digitValue_lt hd
      have pos : 0 < digitValue digit := by
        refine Nat.pos_of_ne_zero fun h => zero ?_
        rw [← char, h]
        rfl
      have first : decimal (digit :: digits) =
          digits.foldl (fun number digit => number * 10 + digitValue digit) (digitValue digit) := by
        rw [decimal, List.foldl_cons, Nat.zero_mul, Nat.zero_add]
        rfl
      rw [trimZeros_of_ne zero, first, toDigits_foldl pos others, Nat.toDigits_of_lt_base small, char,
        List.singleton_append]

theorem trimZeros_ne_nil (digits : List Char) : trimZeros digits ≠ [] := by
  unfold trimZeros
  split
  · exact List.cons_ne_nil _ _
  · next more => exact more

/-- Without the zeros in front it is a numeral still, and of the same value. -/
theorem trimZeros_numeral (h : ∀ c ∈ digits, c.isDigit = true) :
    (∀ c ∈ trimZeros digits, c.isDigit = true) ∧ decimal (trimZeros digits) = decimal digits := by
  rw [← toDigits_decimal h]
  exact ⟨fun _ => Nat.isDigit_of_mem_toDigits (by decide) (by decide), decimal_toDigits _⟩

/-! ### Numerals as texts -/

/-- The tokens of a text of so many bytes that is one numeral. -/
def numeralTokens (value : Int64) (size : Nat) (label : String) : List Token :=
  let stop : Position := ⟨UInt32.ofNat size, label⟩
  [⟨.integer, .integer value, ⟨⟨0, label⟩, stop⟩⟩, ⟨.endOfText, .none, ⟨stop, stop⟩⟩]

section
variable (ne : digits ≠ []) (all : ∀ c ∈ digits, c.isDigit = true)
include ne all

theorem next_ofText_digits (label : String) : (Cursor.ofText digits label).next =
    if decimal digits ≤ Int64.maxValue.toNatClampNeg then
      (.ok ⟨.integer, .integer (Int64.ofNat (decimal digits)), ⟨0, label⟩, ⟨UInt32.ofNat digits.length, label⟩⟩,
        ⟨digits.length, [], label⟩)
    else (.error ⟨.integerOverflow (String.ofList digits), ⟨0, label⟩⟩, .ofText digits label) := by
  have run : DigitRun [] digits [] := ⟨ne, all, nofun, nofun⟩
  have first := Lexeme.first_of_digitRun run
  have solid : (Cursor.ofText digits label).skipBlanks = Cursor.ofText digits label :=
    Cursor.skipBlanks_of_head? fun c hc => not_isBlank_of_isDigit (all c (List.mem_of_head? hc))
  have rest : (Cursor.ofText digits label).rest = digits := rfl
  have finish : (Cursor.ofText digits label).skip digits.length [] = ⟨digits.length, [], label⟩ := by
    simp only [Cursor.skip, Cursor.ofText, Nat.zero_add]
  rw [List.append_nil] at first
  by_cases low : decimal digits ≤ Int64.maxValue.toNatClampNeg
  · rw [if_pos low] at first ⊢
    simp only [Cursor.next, solid, rest, first, finish]
    rfl
  · rw [if_neg low] at first ⊢
    simp only [Cursor.next, solid, rest, first]
    rfl

theorem reads_numeral (low : decimal digits ≤ Int64.maxValue.toNatClampNeg) (label : String) :
    (Cursor.ofText digits label).Reads (numeralTokens (Int64.ofNat (decimal digits)) digits.length label)
      ⟨digits.length, [], label⟩ := by
  have next := next_ofText_digits ne all label
  rw [if_pos low] at next
  exact .cons next (.cons rfl .nil)

theorem tokenize_numeral (low : decimal digits ≤ Int64.maxValue.toNatClampNeg) (label : String) :
    tokenize digits label = .ok (numeralTokens (Int64.ofNat (decimal digits)) digits.length label) := by
  have reads : (Cursor.ofText digits label).Reads ([_] ++ [_]) _ := reads_numeral ne all low label
  exact reads.tokens_eq (by simp) rfl

theorem evaluate_numeral (low : decimal digits ≤ Int64.maxValue.toNatClampNeg) (label : String) (mode : Mode) :
    evaluate digits label mode = .ok (String.ofList (trimZeros digits)) := by
  have reads : (Cursor.ofText digits label).Reads ([_] ++ [_]) _ := reads_numeral ne all low label
  obtain ⟨tree, hp, hs⟩ : ∃ tree, parse digits label mode = .ok tree ∧
      tree.shape = .literal (Int64.ofNat (decimal digits)) :=
    parse_of_derives reads (.term (.factor (.integer rfl rfl))) rfl (.singleton nofun) (Nat.zero_le _) fun _ => rfl
  rw [evaluate_eq_map_parse, hp]
  cases tree with
  | operation => cases hs
  | literal value span =>
    cases hs
    have text : (Int64.ofNat (decimal digits)).toInt.repr = String.ofList (Nat.toDigits 10 (decimal digits)) := by
      rw [toInt_ofNat_of_le low, Int.repr_eq_if, if_pos (Int.natCast_nonneg _), Int.toNat_natCast,
        Nat.repr_eq_ofList_toDigits]
    rw [Except.map, Tree.render, Literal.text, text, toDigits_decimal all]

end

/-- A text of digits is one integer of the value that they have, if 64 bits hold it, and else a fault that shows all
    of them. Reading digit by digit with every step checked comes to the same. The integer is written with the digits
    of the text without the zeros in front, and these are read as the same integer. -/
theorem numerals_are_exact (digits : List Char) (label : String) (ne : digits ≠ [])
    (all : ∀ c ∈ digits, c.isDigit = true) :
    decimal digits = Nat.ofDigits 10 (digits.reverse.map digitValue) ∧
    (decimal digits ≤ Int64.maxValue.toNatClampNeg → ∃ value : Int64, value.toInt = decimal digits ∧
      readChecked? digits = some value ∧ tokenize digits label = .ok (numeralTokens value digits.length label) ∧
      (∀ mode, evaluate digits label mode = .ok (String.ofList (trimZeros digits))) ∧
      tokenize (trimZeros digits) label = .ok (numeralTokens value (trimZeros digits).length label)) ∧
    (Int64.maxValue.toNatClampNeg < decimal digits → readChecked? digits = none ∧
      tokenize digits label = .error ⟨.integerOverflow (String.ofList digits), ⟨0, label⟩⟩) := by
  refine ⟨decimal_eq_ofDigits digits, fun low => ?_, fun high => ?_⟩
  · obtain ⟨all', same⟩ := trimZeros_numeral all
    have again := tokenize_numeral (trimZeros_ne_nil digits) all' (same ▸ low) label
    rw [same] at again
    exact ⟨Int64.ofNat (decimal digits), toInt_ofNat_of_le low, by rw [readChecked?_eq, if_pos low],
      tokenize_numeral ne all low label, evaluate_numeral ne all low label, again⟩
  · have next := next_ofText_digits ne all label
    rw [if_neg (Nat.not_le_of_lt high)] at next
    exact ⟨by rw [readChecked?_eq, if_neg (Nat.not_le_of_lt high)],
      Cursor.tokens_eq_error_iff.mpr ⟨[], _, .nil, nofun, by rw [next]⟩⟩

/-- The longer of the two numerals stands for the smaller number, which is the largest that 64 bits hold. -/
theorem numerals_are_exact_at_limit :
    (∀ c ∈ "0009223372036854775807".toList, c.isDigit = true) ∧
    (∀ c ∈ "9223372036854775808".toList, c.isDigit = true) ∧
    evaluate "0009223372036854775807".toList "s" .lenient = .ok "9223372036854775807" ∧
    tokenize "9223372036854775808".toList "s" = .error ⟨.integerOverflow "9223372036854775808", ⟨0, "s"⟩⟩ := by
  have long : ∀ c ∈ "0009223372036854775807".toList, c.isDigit = true := List.all_eq_true.mp rfl
  have large : ∀ c ∈ "9223372036854775808".toList, c.isDigit = true := List.all_eq_true.mp rfl
  obtain ⟨-, held, -⟩ := numerals_are_exact "0009223372036854775807".toList "s" (by decide) long
  obtain ⟨_, -, -, -, rendered, -⟩ := held (by decide)
  obtain ⟨-, -, refused⟩ := numerals_are_exact "9223372036854775808".toList "s" (by decide) large
  exact ⟨long, large, rendered .lenient, (refused (by decide)).2⟩

end Polish
