import Mathlib
import Polish.Proofs.Stream

/-! The tokens of a text tile it: they stand in it one behind another, with nothing but white space before
    and between them, and each is as long as it can be. A text without such a tiling has an offence, which is a
    character that begins no token or a number that is too large, and the fault is the leftmost one. -/

namespace Polish

/-! ### Words and offences -/

/-- The characters that are tokens by themselves. -/
def symbols : List (Char × Kind) :=
  [('(', .openParen), (')', .closeParen), ('+', .plus), ('-', .minus), ('*', .times), ('/', .divide)]

theorem Kind.ofSymbol?_eq_some_iff {c : Char} {kind : Kind} :
    Kind.ofSymbol? c = some kind ↔ (c, kind) ∈ symbols := by
  constructor
  · intro h
    unfold Kind.ofSymbol? at h
    split at h <;> cases h <;> decide
  · intro h
    simp only [symbols, List.mem_cons, Prod.mk.injEq, List.not_mem_nil, or_false] at h
    rcases h with ⟨rfl, rfl⟩ | ⟨rfl, rfl⟩ | ⟨rfl, rfl⟩ | ⟨rfl, rfl⟩ | ⟨rfl, rfl⟩ | ⟨rfl, rfl⟩ <;> rfl

theorem Kind.ofSymbol?_eq_none_iff {c : Char} : Kind.ofSymbol? c = none ↔ ∀ kind, (c, kind) ∉ symbols := by
  rw [Option.eq_none_iff_forall_ne_some]
  exact forall_congr' fun kind => not_congr Kind.ofSymbol?_eq_some_iff

theorem Kind.ofSymbol?_injective {c d : Char} {kind : Kind} (h : Kind.ofSymbol? c = some kind)
    (h' : Kind.ofSymbol? d = some kind) : c = d := by
  have once : ∀ one ∈ symbols, ∀ other ∈ symbols, one.2 = other.2 → one.1 = other.1 := by decide
  exact once _ (ofSymbol?_eq_some_iff.mp h) _ (ofSymbol?_eq_some_iff.mp h') rfl

theorem not_isDigit_of_symbol {c : Char} {kind : Kind} (h : (c, kind) ∈ symbols) : c.isDigit = false := by
  have other : ∀ entry ∈ symbols, entry.1.isDigit = false := by decide
  exact other _ h

theorem not_isBlank_of_symbol {c : Char} {kind : Kind} (h : (c, kind) ∈ symbols) : isBlank c = false := by
  have other : ∀ entry ∈ symbols, isBlank entry.1 = false := by decide
  exact other _ h

/-- No digit ends `before` where another begins `after`. -/
def Parted (before after : List Char) : Prop :=
  ∀ c d, before.getLast? = some c → after.head? = some d → c.isDigit = true → d.isDigit = false

theorem parted_concat {before after : List Char} {c : Char} (h : c.isDigit = false) : Parted (before ++ [c]) after := by
  intro c' d hc _ digit
  rw [List.getLast?_concat] at hc
  cases hc
  rw [h] at digit
  cases digit

theorem parted_of_forall {before after : List Char} (h : ∀ c ∈ before, c.isDigit = false) : Parted before after := by
  intro c _ last _ digit
  rw [h c (List.mem_of_getLast? last)] at digit
  cases digit

/-- Digits with no digit beside them. -/
structure DigitRun (before digits after : List Char) : Prop where
  ne_nil : digits ≠ []
  digits : ∀ c ∈ digits, c.isDigit = true
  left : ∀ c, before.getLast? = some c → c.isDigit = false
  right : ∀ c, after.head? = some c → c.isDigit = false

/-- What a word between `before` and `after` is as a token. -/
inductive Spells (before after : List Char) : List Char → Kind → Literal → Prop
  | symbol {c : Char} {kind : Kind} : (c, kind) ∈ symbols → Spells before after [c] kind (.symbol c)
  | integer {digits : List Char} : DigitRun before digits after →
      decimal digits ≤ Int64.maxValue.toNatClampNeg →
      Spells before after digits .integer (.integer (Int64.ofNat (decimal digits)))

/-- What stands behind `before` and is no part of a token. -/
inductive Offence (before : List Char) : List Char → Fault → Prop
  | character {c : Char} {after : List Char} : isBlank c = false → c.isDigit = false →
      (∀ kind, (c, kind) ∉ symbols) → Offence before (c :: after) (.unknownCharacter c)
  | integer {digits after : List Char} : DigitRun before digits after →
      Int64.maxValue.toNatClampNeg < decimal digits →
      Offence before (digits ++ after) (.integerOverflow (String.ofList digits))

theorem Offence.ne_nil {before rest : List Char} {fault : Fault} (h : Offence before rest fault) : rest ≠ [] := by
  cases h with
  | character => nofun
  | integer run => exact fun h => run.ne_nil (List.append_eq_nil_iff.mp h).1

theorem Offence.isBlank_eq_false {before rest : List Char} {c : Char} {fault : Fault}
    (h : Offence before (c :: rest) fault) : isBlank c = false := by
  generalize hr : c :: rest = text at h
  cases h with
  | character blank =>
    cases hr
    exact blank
  | @integer digits after run =>
    obtain ⟨d, more, rfl⟩ := List.exists_cons_of_ne_nil run.ne_nil
    cases hr
    exact not_isBlank_of_isDigit (run.digits _ List.mem_cons_self)

theorem Spells.kind_ne {before after word : List Char} {kind : Kind} {literal : Literal}
    (h : Spells before after word kind literal) : kind ≠ .endOfText := by
  cases h with
  | symbol mem => exact fun h => by simp [symbols, h] at mem
  | integer => nofun

theorem Spells.exists_cons {before after word : List Char} {kind : Kind} {literal : Literal}
    (h : Spells before after word kind literal) : ∃ c more, word = c :: more ∧ isBlank c = false := by
  cases h with
  | @symbol c kind mem => exact ⟨c, [], rfl, not_isBlank_of_symbol mem⟩
  | integer run =>
    obtain ⟨c, more, rfl⟩ := List.exists_cons_of_ne_nil run.ne_nil
    exact ⟨c, more, rfl, not_isBlank_of_isDigit (run.digits c List.mem_cons_self)⟩

/-- Of two parts, the first is all that is taken if the second does not go on like it. -/
theorem takeWhile_append_of_stop {p : Char → Bool} {front back : List Char} (inside : ∀ c ∈ front, p c = true)
    (stop : ∀ c, back.head? = some c → p c = false) : (front ++ back).takeWhile p = front := by
  rw [List.takeWhile_append_of_pos inside]
  cases back with
  | nil => rw [List.takeWhile_nil, List.append_nil]
  | cons c back => rw [List.takeWhile_cons_of_neg (by simp [stop c rfl]), List.append_nil]

namespace DigitRun
variable {before digits digits' after after' : List Char}

theorem takeWhile_eq (h : DigitRun before digits after) : (digits ++ after).takeWhile Char.isDigit = digits :=
  takeWhile_append_of_stop h.digits h.right

theorem dropWhile_eq (h : DigitRun before digits after) : (digits ++ after).dropWhile Char.isDigit = after := by
  rw [List.dropWhile_append_of_pos h.digits]
  cases after with
  | nil => rfl
  | cons c after => rw [List.dropWhile_cons_of_neg (by simp [h.right c rfl])]

/-- Where a run of digits begins, it ends at one place only. -/
theorem unique (h : DigitRun before digits after) (h' : DigitRun before digits' after')
    (heq : digits ++ after = digits' ++ after') : digits = digits' := by
  rw [← h.takeWhile_eq, heq, h'.takeWhile_eq]

theorem head_isDigit {c : Char} {rest : List Char} (h : DigitRun before digits after)
    (heq : digits ++ after = c :: rest) : c.isDigit = true := by
  cases digits with
  | nil => exact absurd rfl h.ne_nil
  | cons d digits =>
    cases heq
    exact h.digits _ List.mem_cons_self

theorem of_parted (h : DigitRun [] digits after) (parted : Parted before (digits ++ after)) :
    DigitRun before digits after where
  ne_nil := h.ne_nil
  digits := h.digits
  left c hc := by
    obtain ⟨d, rest, hd⟩ := List.exists_cons_of_ne_nil h.ne_nil
    by_contra digit
    have := parted c d hc (by rw [hd]; rfl) (by simpa using digit)
    rw [h.digits d (by rw [hd]; exact List.mem_cons_self)] at this
    cases this
  right := h.right

end DigitRun

section
variable {before after word left right rest : List Char} {c : Char} {kind : Kind} {literal : Literal} {fault : Fault}

theorem Offence.not_mem_symbols (h : Offence before (c :: rest) fault) : (c, kind) ∉ symbols := by
  intro mem
  generalize hr : c :: rest = text at h
  cases h with
  | character _ _ none =>
    cases hr
    exact none kind mem
  | integer run =>
    have := run.head_isDigit hr.symm
    rw [not_isDigit_of_symbol mem] at this
    cases this

theorem Offence.run_of_isDigit (h : Offence before (c :: rest) fault) (digit : c.isDigit = true) :
    ∃ digits after, c :: rest = digits ++ after ∧ DigitRun before digits after ∧
      Int64.maxValue.toNatClampNeg < decimal digits := by
  generalize hr : c :: rest = text at h
  cases h with
  | character _ other =>
    cases hr
    rw [digit] at other
    cases other
  | integer run high => exact ⟨_, _, rfl, run, high⟩

theorem Spells.parted (h : Spells before after word kind literal) : Parted (before ++ word) after := by
  cases h with
  | symbol mem => exact parted_concat (not_isDigit_of_symbol mem)
  | integer run => exact fun _ d _ hd _ => run.right d hd

/-- A word holds no offence. -/
theorem Spells.not_offence (h : Spells before after word kind literal) (split : word = left ++ c :: right) :
    ¬Offence (before ++ left) (c :: right ++ after) fault := by
  intro offence
  cases h with
  | @symbol d kind mem =>
    have here : c ∈ [d] := by rw [split]; exact List.mem_append_right _ List.mem_cons_self
    rw [← List.mem_singleton.mp here] at mem
    exact offence.not_mem_symbols mem
  | integer run low =>
    have digit (d : Char) (hd : d ∈ left ++ c :: right) : d.isDigit = true := run.digits d (split ▸ hd)
    obtain ⟨digits, rest, hr, run', high⟩ := offence.run_of_isDigit (digit c (by simp))
    rcases List.eq_nil_or_concat left with rfl | ⟨front, last, rfl⟩
    · -- Both runs begin where the word does, so they are one.
      rw [List.append_nil] at run'
      rw [List.nil_append] at split
      have same : word ++ after = digits ++ rest := split ▸ hr
      rw [run.unique run' same] at low
      omega
    · -- The run of the offence would have a digit on its left.
      have := run'.left last (by rw [List.concat_eq_append, ← List.append_assoc, List.getLast?_concat])
      rw [digit last (by simp)] at this
      cases this

end

/-! ### What a text begins with -/

/-- Every case of the reading of a lexeme. -/
inductive Lexeme.View : List Char → Lexeme → Prop
  | nothing : View [] .nothing
  | symbol {c : Char} {kind : Kind} {rest : List Char} : (c, kind) ∈ symbols →
      View (c :: rest) (.token kind (.symbol c) c.utf8Size rest)
  | integer {digits rest : List Char} : DigitRun [] digits rest → decimal digits ≤ Int64.maxValue.toNatClampNeg →
      View (digits ++ rest) (.token .integer (.integer (Int64.ofNat (decimal digits))) digits.length rest)
  | overflow {digits rest : List Char} : DigitRun [] digits rest → Int64.maxValue.toNatClampNeg < decimal digits →
      View (digits ++ rest) (.fault (.integerOverflow (String.ofList digits)))
  | unknown {c : Char} {rest : List Char} : (∀ kind, (c, kind) ∉ symbols) → c.isDigit = false →
      View (c :: rest) (.fault (.unknownCharacter c))

theorem Lexeme.view_first (text : List Char) : Lexeme.View text (Lexeme.first text) := by
  cases text with
  | nil => exact .nothing
  | cons c text =>
    simp only [Lexeme.first]
    split
    · next hk => exact .symbol (Kind.ofSymbol?_eq_some_iff.mp hk)
    · next hk =>
      split
      · next hd =>
        have run : DigitRun [] (c :: text.takeWhile Char.isDigit) (text.dropWhile Char.isDigit) := by
          refine ⟨List.cons_ne_nil _ _, ?_, fun d hd => ?_, fun d hd => ?_⟩
          · exact List.forall_mem_cons.mpr ⟨hd, List.all_eq_true.mp List.all_takeWhile⟩
          · cases hd
          · have := List.head?_dropWhile_not Char.isDigit text
            rw [hd] at this
            simpa using this
        have split : c :: text = (c :: text.takeWhile Char.isDigit) ++ text.dropWhile Char.isDigit := by
          rw [List.cons_append, List.takeWhile_append_dropWhile]
        simp only [Lexeme.integer]
        split
        · next low =>
          rw [split]
          exact .integer run low
        · next high =>
          rw [split]
          exact .overflow run (Nat.lt_of_not_le high)
      · next hd =>
        exact .unknown (Kind.ofSymbol?_eq_none_iff.mp hk) (by simpa using hd)

theorem Lexeme.first_of_digitRun {digits rest : List Char} (run : DigitRun [] digits rest) :
    Lexeme.first (digits ++ rest) =
      if decimal digits ≤ Int64.maxValue.toNatClampNeg then
        .token .integer (.integer (Int64.ofNat (decimal digits))) digits.length rest
      else .fault (.integerOverflow (String.ofList digits)) := by
  have taken := run.takeWhile_eq
  have left := run.dropWhile_eq
  obtain ⟨digit, more, rfl⟩ := List.exists_cons_of_ne_nil run.ne_nil
  have hd := run.digits digit List.mem_cons_self
  have none : Kind.ofSymbol? digit = none := by
    rw [Kind.ofSymbol?_eq_none_iff]
    intro kind mem
    rw [not_isDigit_of_symbol mem] at hd
    cases hd
  rw [List.cons_append, List.takeWhile_cons_of_pos hd] at taken
  rw [List.cons_append, List.dropWhile_cons_of_pos hd] at left
  simp only [List.cons_append, Lexeme.first, none, hd, ↓reduceIte, Lexeme.integer, taken, left]

theorem Lexeme.View.first_eq {text : List Char} {lexeme : Lexeme} (h : View text lexeme) :
    Lexeme.first text = lexeme := by
  cases h with
  | nothing => rfl
  | symbol mem => simp only [Lexeme.first, Kind.ofSymbol?_eq_some_iff.mpr mem]
  | integer run low => rw [Lexeme.first_of_digitRun run, if_pos low]
  | overflow run high => rw [Lexeme.first_of_digitRun run, if_neg (Nat.not_le_of_lt high)]
  | unknown none other =>
    simp only [Lexeme.first, Kind.ofSymbol?_eq_none_iff.mpr none, other, Bool.false_eq_true, ↓reduceIte]

namespace Cursor
variable {cursor : Cursor} {text before piece rest : List Char}

/-! ### Where a cursor stands -/

/-- The cursor has come as far as the end of `before`. It has split no run of digits, and there is no offence
    behind it. -/
structure Stands (cursor : Cursor) (text before : List Char) : Prop where
  split : text = before ++ cursor.rest
  offset : cursor.offset = Utf8.size before
  parted : Parted before cursor.rest
  clean : ∀ left right fault, text = left ++ right → Offence left right fault → before.length ≤ left.length

theorem stands_ofText (text : List Char) (label : String) : (ofText text label).Stands text [] :=
  ⟨rfl, rfl, nofun, fun _ _ _ _ _ => Nat.zero_le _⟩

/-- A cursor may go on over a piece of the text in which no offence begins. -/
theorem Stands.skip (h : cursor.Stands text before) (split : cursor.rest = piece ++ rest)
    (parted : Parted (before ++ piece) rest)
    (clean : ∀ left c right fault, piece = left ++ c :: right →
      ¬Offence (before ++ left) (c :: right ++ rest) fault) :
    (cursor.skip (Utf8.size piece) rest).Stands text (before ++ piece) := by
  refine ⟨?_, ?_, parted, fun left right fault heq offence => ?_⟩
  · rw [h.split, split, List.append_assoc]
    rfl
  · rw [Utf8.size_append, ← h.offset]
    rfl
  · by_contra short
    rw [Nat.not_le] at short
    have whole : text = before ++ piece ++ rest := by rw [List.append_assoc, ← split, h.split]
    -- The offence begins in the piece.
    obtain ⟨inner, rfl⟩ : before <+: left :=
      List.prefix_of_prefix_length_le ⟨_, h.split.symm⟩ ⟨_, heq.symm⟩ (h.clean left right fault heq offence)
    obtain ⟨more, hm⟩ : before ++ inner <+: before ++ piece :=
      List.prefix_of_prefix_length_le ⟨_, heq.symm⟩ ⟨_, whole.symm⟩ short.le
    rw [List.append_assoc, List.append_cancel_left_eq] at hm
    subst hm
    cases more with
    | nil => simp at short
    | cons c more =>
      rw [heq] at whole
      simp only [List.append_assoc, List.append_cancel_left_eq] at whole
      rw [whole] at offence
      exact clean inner c more fault rfl offence

theorem Stands.skipBlanks (h : cursor.Stands text before) :
    ∃ gap, (∀ c ∈ gap, isBlank c = true) ∧ cursor.skipBlanks.Stands text (before ++ gap) ∧
      ∀ c, cursor.skipBlanks.rest.head? = some c → isBlank c = false := by
  have blank : ∀ c ∈ cursor.rest.takeWhile isBlank, isBlank c = true := List.all_eq_true.mp List.all_takeWhile
  have split : cursor.rest = cursor.rest.takeWhile isBlank ++ trimStart cursor.rest :=
    List.takeWhile_append_dropWhile.symm
  refine ⟨cursor.rest.takeWhile isBlank, blank, h.skip split ?_ ?_, fun _ => isBlank_of_head?_skipBlanks⟩
  · rcases List.eq_nil_or_concat (cursor.rest.takeWhile isBlank) with hnil | ⟨front, last, hlast⟩
    · rw [hnil, List.append_nil]
      rw [hnil, List.nil_append] at split
      exact split ▸ h.parted
    · rw [hlast, List.concat_eq_append, ← List.append_assoc]
      refine parted_concat (Bool.eq_false_iff.mpr fun digit => ?_)
      have := blank last (by rw [hlast]; simp)
      rw [not_isBlank_of_isDigit digit] at this
      cases this
  · intro left c right fault hpiece offence
    have := blank c (by rw [hpiece]; simp)
    rw [offence.isBlank_eq_false] at this
    cases this

theorem Stands.skip_word {kind : Kind} {literal : Literal} (h : cursor.Stands text before)
    (split : cursor.rest = piece ++ rest) (spells : Spells before rest piece kind literal) :
    (cursor.skip (Utf8.size piece) rest).Stands text (before ++ piece) :=
  h.skip split spells.parted fun _ _ _ _ => spells.not_offence

/-- What reading comes to where a cursor stands, with white space up to the end of `gap`. -/
inductive Found (cursor : Cursor) (text before gap : List Char) : Except Error Token × Cursor → Prop
  | ending {after : Cursor} : text = before ++ gap → after.Stands text text →
      Found cursor text before gap (.ok ⟨.endOfText, .none, after.position, after.position⟩, after)
  | word {token : Token} {after : Cursor} {word : List Char} :
      after.Stands text (before ++ gap ++ word) →
      Spells (before ++ gap) after.rest word token.kind token.literal → Found cursor text before gap (.ok token, after)
  | fault {error : Error} {after : Cursor} : after.Stands text (before ++ gap) →
      Offence (before ++ gap) after.rest error.fault → Found cursor text before gap (.error error, after)

theorem Stands.found (h : cursor.Stands text before) :
    ∃ gap, (∀ c ∈ gap, isBlank c = true) ∧ cursor.skipBlanks.Stands text (before ++ gap) ∧
      Found cursor text before gap cursor.next := by
  obtain ⟨gap, blank, here, solid⟩ := h.skipBlanks
  refine ⟨gap, blank, here, ?_⟩
  have view := Lexeme.view_first cursor.skipBlanks.rest
  simp only [next]
  generalize hr : cursor.skipBlanks.rest = text' at view
  generalize Lexeme.first text' = lexeme at view
  cases view with
  | nothing =>
    have whole : text = before ++ gap := by rw [here.split, hr, List.append_nil]
    exact .ending whole (whole ▸ here)
  | @symbol c kind rest mem =>
    have spells : Spells (before ++ gap) rest [c] kind (.symbol c) := .symbol mem
    exact .word (here.skip_word hr spells) spells
  | integer run low =>
    have spells := Spells.integer (run.of_parted (hr ▸ here.parted)) low
    have stands := here.skip_word hr spells
    rw [Utf8.size_eq_length_of_isDigit run.digits] at stands
    exact .word stands spells
  | overflow run high =>
    refine .fault here ?_
    rw [hr]
    exact .integer (run.of_parted (hr ▸ here.parted)) high
  | unknown none other =>
    refine .fault here ?_
    rw [hr] at solid ⊢
    exact .character (solid _ rfl) other none

theorem Step.toNat_start {token : Token} {after : Cursor} (h : Step cursor token after)
    (short : cursor.finish < UInt32.size) : token.span.start.offset.toNat = cursor.skipBlanks.offset := by
  have whole := finish_skipBlanks cursor
  rw [h.start, toNat_position (by unfold Cursor.finish at whole short; omega)]

theorem Stands.next (h : cursor.Stands text before) : ∃ before', cursor.next.2.Stands text before' := by
  obtain ⟨gap, -, -, found⟩ := h.found
  generalize cursor.next = result at found
  cases found with
  | ending _ stands | word stands _ | fault stands _ => exact ⟨_, stands⟩

theorem Reads.stands {tokens : List Token} {after : Cursor} (h : Reads cursor tokens after)
    (stands : cursor.Stands text before) : ∃ before', after.Stands text before' := by
  induction h generalizing before with
  | nil => exact ⟨before, stands⟩
  | cons hn _ ih =>
    obtain ⟨_, stands⟩ := stands.next
    rw [hn] at stands
    exact ih stands

/-- Every token that was read was read where a cursor stood, behind the tokens before it. -/
theorem Reads.place {front : List Token} {last : Token} {between after : Cursor} (h : Reads cursor front between)
    (hn : between.next = (.ok last, after)) (stands : cursor.Stands text before) (earlier : List Token) (token : Token)
    (later : List Token) (heq : front ++ [last] = earlier ++ token :: later) :
    ∃ here before' next, Reads cursor earlier here ∧ here.Stands text before' ∧ here.next = (.ok token, next) := by
  have whole := h.concat hn
  rw [heq] at whole
  obtain ⟨here, hr, hr'⟩ := whole.split
  obtain ⟨before', hs⟩ := hr.stands stands
  cases hr' with
  | cons hnext _ => exact ⟨here, before', _, hr, hs, hnext⟩

theorem Reads.pairwise {tokens : List Token} {after : Cursor} (h : Reads cursor tokens after)
    (short : cursor.finish < UInt32.size) :
    tokens.Pairwise fun one next => one.span.stop.offset.toNat ≤ next.span.start.offset.toNat := by
  induction h with
  | nil => exact .nil
  | cons hn h ih =>
    have step := step_of_next hn
    have short' := step.finish ▸ short
    obtain ⟨-, -, -, stop⟩ := step.span short
    exact .cons (fun token ht => stop ▸ (h.span short' token ht).1) (ih short')

end Cursor

/-! ### Tilings -/

/-- From byte `start` up to byte `stop` there is white space and nothing else. -/
def BlankBetween (text : List Char) (start stop : Nat) : Prop :=
  ∃ before gap after, text = before ++ gap ++ after ∧ (∀ c ∈ gap, isBlank c = true) ∧
    Utf8.size before = start ∧ Utf8.size (before ++ gap) = stop

/-- The token stands for a word of the text. -/
def Token.Covers (token : Token) (text : List Char) : Prop :=
  ∃ before word after, text = before ++ word ++ after ∧ token.span.start.offset.toNat = Utf8.size before ∧
    token.span.stop.offset.toNat = Utf8.size (before ++ word) ∧ Spells before after word token.kind token.literal

/-- The tokens cover a text with nothing lost. -/
structure Tiling (text : List Char) (tokens : List Token) : Prop where
  closing : ∃ words last, tokens = words ++ [last] ∧ (∀ token ∈ words, token.kind ≠ .endOfText) ∧
    last.kind = .endOfText ∧ last.span.start.offset.toNat = Utf8.size text ∧
    last.span.stop.offset.toNat = Utf8.size text
  covers : ∀ token ∈ tokens, token.kind ≠ .endOfText →
    token.Covers text ∧ token.span.start.offset.toNat < token.span.stop.offset.toNat
  ordered : tokens.Pairwise fun one next => one.span.stop.offset.toNat ≤ next.span.start.offset.toNat
  first : ∀ first back, tokens = first :: back → BlankBetween text 0 first.span.start.offset.toNat
  gaps : ∀ front one next back, tokens = front ++ one :: next :: back →
    BlankBetween text one.span.stop.offset.toNat next.span.start.offset.toNat

namespace Cursor.Stands
variable {cursor after : Cursor} {text before : List Char} {token : Token}

theorem finish_eq (h : cursor.Stands text before) : cursor.finish = Utf8.size text := by
  rw [finish, h.offset, ← Utf8.size_append, ← h.split]

theorem toNat_position (h : cursor.Stands text before) (short : Utf8.size text < UInt32.size) :
    cursor.position.offset.toNat = cursor.offset := by
  have := h.finish_eq
  unfold finish at this
  exact Cursor.toNat_position (by omega)

/-- White space and nothing else stands before the next token. -/
theorem blankBetween (h : cursor.Stands text before) (short : Utf8.size text < UInt32.size)
    (hn : cursor.next = (.ok token, after)) :
    BlankBetween text cursor.offset token.span.start.offset.toNat := by
  obtain ⟨gap, blank, here, -⟩ := h.skipBlanks
  rw [(step_of_next hn).toNat_start (h.finish_eq ▸ short)]
  exact ⟨before, gap, _, here.split, blank, h.offset.symm, here.offset.symm⟩

theorem covers (h : cursor.Stands text before) (short : Utf8.size text < UInt32.size)
    (hn : cursor.next = (.ok token, after)) (more : token.kind ≠ .endOfText) :
    token.Covers text ∧ token.span.start.offset.toNat < token.span.stop.offset.toNat := by
  have step := step_of_next hn
  have start := step.toNat_start (h.finish_eq ▸ short)
  obtain ⟨-, -, lt, stop⟩ := step.span (h.finish_eq ▸ short)
  refine ⟨?_, lt more⟩
  obtain ⟨gap, -, here, found⟩ := h.found
  rw [hn] at found
  cases found with
  | ending => exact absurd rfl more
  | word stands spells =>
    exact ⟨_, _, _, stands.split, start.trans here.offset, stop.trans stands.offset, spells⟩

theorem closing (h : cursor.Stands text before) (short : Utf8.size text < UInt32.size)
    (hn : cursor.next = (.ok token, after)) (last : token.kind = .endOfText) :
    token.span.start.offset.toNat = Utf8.size text ∧ token.span.stop.offset.toNat = Utf8.size text ∧
      after.Stands text text := by
  obtain ⟨gap, -, -, found⟩ := h.found
  rw [hn] at found
  cases found with
  | ending _ stands =>
    have place := (stands.toNat_position short).trans stands.offset
    exact ⟨place, place, stands⟩
  | word _ spells => exact absurd last spells.kind_ne

end Cursor.Stands

section
variable {text : List Char} {label : String}

theorem tiling_of_tokenize {tokens : List Token} (short : Utf8.size text < UInt32.size)
    (h : tokenize text label = .ok tokens) : Tiling text tokens := by
  obtain ⟨front, last, between, rfl, reads, more, hn, end_⟩ := Cursor.tokens_eq_ok_iff.mp h
  have hn : between.next = (.ok last, between.next.2) := Prod.ext hn rfl
  have start := Cursor.stands_ofText text label
  have place := reads.place hn start
  obtain ⟨_, stands⟩ := reads.stands start
  obtain ⟨hstart, hstop, -⟩ := stands.closing short hn end_
  refine ⟨⟨front, last, rfl, more, end_, hstart, hstop⟩, fun token ht hk => ?_, ?_, fun first back heq => ?_,
    fun earlier one next back heq => ?_⟩
  · obtain ⟨earlier, later, heq⟩ := List.append_of_mem ht
    obtain ⟨_, _, _, -, here, hnext⟩ := place earlier token later heq
    exact here.covers short hnext hk
  · exact (reads.concat hn).pairwise (start.finish_eq ▸ short)
  · obtain ⟨_, _, _, hr, here, hnext⟩ := place [] first back heq
    cases hr
    exact here.blankBetween short hnext
  · have heq : front ++ [last] = (earlier ++ [one]) ++ next :: back := by rw [heq, List.append_assoc]; rfl
    obtain ⟨_, _, _, hr, here, hnext⟩ := place (earlier ++ [one]) next back heq
    rw [← hr.position_eq, here.toNat_position short]
    exact here.blankBetween short hnext

theorem blank_of_tokenize {token : Token} (h : tokenize text label = .ok [token]) :
    token.kind = .endOfText ∧ ∀ c ∈ text, isBlank c = true := by
  obtain ⟨front, last, between, heq, reads, -, hn, end_⟩ := Cursor.tokens_eq_ok_iff.mp h
  obtain ⟨rfl, last⟩ : [] = front ∧ [token] = [last] := List.append_inj' (List.nil_append [token] ▸ heq) rfl
  cases last
  cases reads
  obtain ⟨gap, blank, -, found⟩ := (Cursor.stands_ofText text label).found
  rw [show (Cursor.ofText text label).next = (.ok token, _) from Prod.ext hn rfl] at found
  cases found with
  | ending whole => exact ⟨rfl, whole ▸ blank⟩
  | word _ spells => exact absurd end_ spells.kind_ne

theorem tokenize_of_blank (h : ∀ c ∈ text, isBlank c = true) :
    ∃ token, tokenize text label = .ok [token] ∧ token.kind = .endOfText := by
  have nothing : (Cursor.ofText text label).skipBlanks.rest = [] := List.dropWhile_eq_nil_iff.mpr h
  rw [tokenize, Cursor.tokens_eq]
  simp only [Cursor.next, nothing, Lexeme.first, ↓reduceIte]
  exact ⟨_, rfl, rfl⟩

/-- A text offends at byte `offset`. -/
def Offends (text : List Char) (offset : Nat) (fault : Fault) : Prop :=
  ∃ before rest, text = before ++ rest ∧ Utf8.size before = offset ∧ Offence before rest fault

/-- A cursor has not gone past any offence. -/
theorem Cursor.Stands.size_le_of_offends {cursor : Cursor} {before : List Char} {offset : Nat} {fault : Fault}
    (h : cursor.Stands text before) (offends : Offends text offset fault) : Utf8.size before ≤ offset := by
  obtain ⟨left, right, split, rfl, offence⟩ := offends
  obtain ⟨more, rfl⟩ : before <+: left :=
    List.prefix_of_prefix_length_le ⟨_, h.split.symm⟩ ⟨_, split.symm⟩ (h.clean left right fault split offence)
  exact Utf8.size_le_append _ _

/-- The fault is found by a cursor that stands before an offence. -/
theorem stands_of_tokenize {error : Error} (h : tokenize text label = .error error) :
    ∃ cursor before, Cursor.Stands cursor text before ∧ Offence before cursor.rest error.fault ∧
      error.position = cursor.position := by
  obtain ⟨front, between, reads, more, hn⟩ := Cursor.tokens_eq_error_iff.mp h
  have hn : between.next = (.error error, between.next.2) := Prod.ext hn rfl
  obtain ⟨_, stands⟩ := reads.stands (Cursor.stands_ofText text label)
  obtain ⟨hp, ha, -⟩ := Cursor.of_next_eq_error hn
  obtain ⟨gap, -, -, found⟩ := stands.found
  rw [hn] at found
  cases found with
  | fault here offence => exact ⟨_, _, here, offence, by rw [hp, ha]⟩

theorem not_offends_of_tokenize {tokens : List Token} {offset : Nat} {fault : Fault}
    (h : tokenize text label = .ok tokens) : ¬Offends text offset fault := by
  rintro ⟨left, right, split, -, offence⟩
  obtain ⟨front, last, between, -, reads, more, hn, end_⟩ := Cursor.tokens_eq_ok_iff.mp h
  have hn : between.next = (.ok last, between.next.2) := Prod.ext hn rfl
  obtain ⟨_, stands⟩ := reads.stands (Cursor.stands_ofText text label)
  obtain ⟨gap, -, -, found⟩ := stands.found
  rw [hn] at found
  cases found with
  | ending _ here =>
    -- The whole text has been read, so there is nothing to the right of the offence.
    have far := here.clean left right fault split offence
    rw [split, List.length_append] at far
    exact offence.ne_nil (List.length_eq_zero_iff.mp (by omega))
  | word _ spells => exact spells.kind_ne end_

theorem offends_of_tokenize {error : Error} (short : Utf8.size text < UInt32.size)
    (h : tokenize text label = .error error) :
    Offends text error.position.offset.toNat error.fault ∧
      ∀ offset fault, Offends text offset fault → error.position.offset.toNat ≤ offset := by
  obtain ⟨cursor, before, stands, offence, position⟩ := stands_of_tokenize h
  rw [position, stands.toNat_position short, stands.offset]
  exact ⟨⟨before, _, stands.split, rfl, offence⟩, fun _ _ => stands.size_le_of_offends⟩

theorem tokenize_fails_iff :
    (∃ error, tokenize text label = .error error) ↔ ∃ offset fault, Offends text offset fault := by
  constructor
  · rintro ⟨error, h⟩
    obtain ⟨_, before, stands, offence, -⟩ := stands_of_tokenize h
    exact ⟨_, _, before, _, stands.split, rfl, offence⟩
  · rintro ⟨offset, fault, offends⟩
    cases h : tokenize text label with
    | ok tokens => exact absurd offends (not_offends_of_tokenize h)
    | error error => exact ⟨error, rfl⟩

end

/-- Reading all tokens of a text loses nothing of it, or it fails at the leftmost offence. -/
theorem tokenize_tiles (text : List Char) (label : String) (short : Utf8.size text < UInt32.size) :
    (∀ tokens, tokenize text label = .ok tokens → Tiling text tokens) ∧
    ((∃ error, tokenize text label = .error error) ↔ ∃ offset fault, Offends text offset fault) ∧
    ∀ error, tokenize text label = .error error → Offends text error.position.offset.toNat error.fault ∧
      ∀ offset fault, Offends text offset fault → error.position.offset.toNat ≤ offset :=
  ⟨fun _ => tiling_of_tokenize short, tokenize_fails_iff, fun _ => offends_of_tokenize short⟩

/-- The white space before the sign is two bytes long, and digits follow one another in one word only. -/
theorem tokenize_tiles_wide_blank : Utf8.size ['1', '2', '\u0085', '+', '0', '7'] < UInt32.size ∧
    Tiling ['1', '2', '\u0085', '+', '0', '7']
      [⟨.integer, .integer 12, ⟨⟨0, "s"⟩, ⟨2, "s"⟩⟩⟩, ⟨.plus, .symbol '+', ⟨⟨4, "s"⟩, ⟨5, "s"⟩⟩⟩,
        ⟨.integer, .integer 7, ⟨⟨5, "s"⟩, ⟨7, "s"⟩⟩⟩, ⟨.endOfText, .none, ⟨⟨7, "s"⟩, ⟨7, "s"⟩⟩⟩] :=
  ⟨by decide, (tokenize_tiles ['1', '2', '\u0085', '+', '0', '7'] "s" (by decide)).1 _ (by cbv)⟩

end Polish
