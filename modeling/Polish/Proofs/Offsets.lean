import Mathlib
import Polish.Proofs.Grouping

/-! Offsets in texts of any length. The text alone settles where its tokens are, which has no bound, and what is
    reported is the remainder by 2^32. So the tokens of a text are all reported where they are exactly if the text has
    fewer bytes than that, and a fault exactly if it begins before that byte. -/

namespace Polish

/-! ### Where tokens are -/

/-- From which byte of a text up to which one. -/
structure Extent where
  start : Nat
  stop : Nat

/-- What 32 bits keep of an extent. -/
def Extent.wrapped (extent : Extent) : Extent :=
  ⟨extent.start % UInt32.size, extent.stop % UInt32.size⟩

/-- What a span reports. -/
def Span.extent (span : Span) : Extent :=
  ⟨span.start.offset.toNat, span.stop.offset.toNat⟩

/-- Behind `before` the text consists of the words of the tokens, which are where the extents say, and of white space.
    The closing token is at the end of the text. -/
inductive Laid (text : List Char) : List Char → List Token → List Extent → Prop
  | ending {before gap : List Char} {token : Token} : text = before ++ gap → (∀ c ∈ gap, isBlank c = true) →
      token.kind = .endOfText → token.literal = .none →
      Laid text before [token] [⟨Utf8.size text, Utf8.size text⟩]
  | word {before gap word after : List Char} {token : Token} {tokens : List Token} {extents : List Extent} :
      text = before ++ gap ++ word ++ after → (∀ c ∈ gap, isBlank c = true) →
      Spells (before ++ gap) after word token.kind token.literal → Laid text (before ++ gap ++ word) tokens extents →
      Laid text before (token :: tokens) (⟨Utf8.size (before ++ gap), Utf8.size (before ++ gap ++ word)⟩ :: extents)

section
variable {before after after' word word' gap : List Char} {kind : Kind} {literal : Literal}

theorem Spells.takeWhile_eq (h : Spells before after word kind literal) (blank : ∀ c ∈ gap, isBlank c = true) :
    (gap ++ (word ++ after)).takeWhile isBlank = gap := by
  obtain ⟨c, more, rfl, solid⟩ := h.exists_cons
  refine takeWhile_append_of_stop blank fun d hd => ?_
  cases hd
  exact solid

/-- Where a word begins, no other one spells the same token. -/
theorem Spells.unique (h : Spells before after word kind literal) (h' : Spells before after' word' kind literal)
    (heq : word ++ after = word' ++ after') : word = word' := by
  generalize hl : literal = other at h'
  cases h with
  | symbol =>
    cases h' with
    | symbol =>
      cases hl
      rfl
    | integer => cases hl
  | integer run =>
    cases h' with
    | symbol => cases hl
    | integer run' => exact DigitRun.unique run run' heq

end

namespace Laid
variable {text before : List Char} {tokens : List Token} {extents : List Extent}

/-- The extents of tokens are settled by the text. -/
theorem unique {extents' : List Extent} (h : Laid text before tokens extents) (h' : Laid text before tokens extents') :
    extents = extents' := by
  induction h generalizing extents' with
  | ending _ _ last =>
    cases h' with
    | ending => rfl
    | word _ _ spells => exact absurd last spells.kind_ne
  | @word before gap word after _ _ _ split blank spells _ ih =>
    cases h' with
    | ending _ _ last => exact absurd last spells.kind_ne
    | @word _ gap' word' after' _ _ _ split' blank' spells' laid =>
      have rest : gap ++ (word ++ after) = gap' ++ (word' ++ after') := by
        simpa only [List.append_assoc, List.append_cancel_left_eq] using split.symm.trans split'
      -- The white space goes up to the first character that is not blank, with which the word begins.
      obtain rfl : gap = gap' := by rw [← spells.takeWhile_eq blank, rest, spells'.takeWhile_eq blank']
      obtain rfl : word = word' := spells.unique spells' (List.append_cancel_left rest)
      rw [ih laid]

theorem last_mem (h : Laid text before tokens extents) : ⟨Utf8.size text, Utf8.size text⟩ ∈ extents := by
  induction h with
  | ending => exact List.mem_cons_self
  | word _ _ _ _ ih => exact List.mem_cons_of_mem _ ih

/-- Extents are not before the place where reading began, and not behind the end of the text. -/
theorem bounds (h : Laid text before tokens extents) :
    ∀ extent ∈ extents, Utf8.size before ≤ extent.start ∧ extent.start ≤ extent.stop ∧
      extent.stop ≤ Utf8.size text := by
  induction h with
  | ending split =>
    exact List.forall_mem_singleton.mpr ⟨split ▸ Utf8.size_le_append _ _, Nat.le_refl _, Nat.le_refl _⟩
  | word split _ _ _ ih =>
    refine List.forall_mem_cons.mpr ⟨⟨Utf8.size_le_append _ _, Utf8.size_le_append _ _, ?_⟩, fun extent mem => ?_⟩
    · exact split ▸ Utf8.size_le_append _ _
    · obtain ⟨start, inside⟩ := ih extent mem
      rw [List.append_assoc] at start
      exact ⟨(Utf8.size_le_append _ _).trans start, inside⟩

theorem increasing (h : Laid text before tokens extents) :
    extents.Pairwise fun one next => one.start < next.start := by
  induction h with
  | ending => exact List.pairwise_singleton ..
  | @word before gap word _ _ _ _ _ _ spells laid ih =>
    refine .cons (fun extent mem => ?_) ih
    obtain ⟨start, -⟩ := laid.bounds extent mem
    obtain ⟨c, more, rfl, -⟩ := spells.exists_cons
    have := c.utf8Size_pos
    rw [Utf8.size_append, Utf8.size_cons] at start
    show Utf8.size (before ++ gap) < extent.start
    omega

theorem wrapped_eq (h : Laid text before tokens extents) (short : Utf8.size text < UInt32.size) :
    ∀ extent ∈ extents, extent.wrapped = extent := by
  intro extent mem
  obtain ⟨-, order, stop⟩ := h.bounds extent mem
  rw [Extent.wrapped, Nat.mod_eq_of_lt (by omega), Nat.mod_eq_of_lt (by omega)]

end Laid

/-! ### What is reported -/

namespace Cursor
variable {cursor after : Cursor} {text before : List Char} {token : Token}

theorem toNat_position_eq_mod (cursor : Cursor) : cursor.position.offset.toNat = cursor.offset % UInt32.size :=
  UInt32.toNat_ofNat'

/-- A word that is read stands behind white space, and its token reports the remainders of its place. -/
theorem Stands.word_of_next (h : cursor.Stands text before) (hn : cursor.next = (.ok token, after))
    (more : token.kind ≠ .endOfText) :
    ∃ gap word, (∀ c ∈ gap, isBlank c = true) ∧ after.Stands text (before ++ gap ++ word) ∧
      Spells (before ++ gap) after.rest word token.kind token.literal ∧
      token.span.extent = Extent.wrapped ⟨Utf8.size (before ++ gap), Utf8.size (before ++ gap ++ word)⟩ := by
  have step := step_of_next hn
  obtain ⟨gap, blank, here, found⟩ := h.found
  rw [hn] at found
  cases found with
  | ending => exact absurd rfl more
  | @word _ _ word stands spells =>
    refine ⟨gap, word, blank, stands, spells, ?_⟩
    rw [Span.extent, step.start, step.stop, toNat_position_eq_mod, toNat_position_eq_mod, here.offset, stands.offset,
      Extent.wrapped]

/-- The closing token is read behind white space at the end, and it reports the remainder of the size. -/
theorem Stands.ending_of_next (h : cursor.Stands text before) (hn : cursor.next = (.ok token, after))
    (last : token.kind = .endOfText) :
    ∃ gap, (∀ c ∈ gap, isBlank c = true) ∧ text = before ++ gap ∧ token.literal = .none ∧
      token.span.extent = Extent.wrapped ⟨Utf8.size text, Utf8.size text⟩ := by
  obtain ⟨gap, blank, -, found⟩ := h.found
  rw [hn] at found
  cases found with
  | ending whole stands =>
    refine ⟨gap, blank, whole, rfl, ?_⟩
    rw [Span.extent, toNat_position_eq_mod, stands.offset, Extent.wrapped]
  | word _ spells => exact absurd last spells.kind_ne

/-- Tokens that are read up to the closing one are laid where reading began. -/
theorem Reads.laid {front : List Token} {between : Cursor} {last : Token} (h : Reads cursor front between)
    (unended : ∀ token ∈ front, token.kind ≠ .endOfText) (hn : between.next.1 = .ok last)
    (end_ : last.kind = .endOfText) (stands : cursor.Stands text before) :
    ∃ extents, Laid text before (front ++ [last]) extents ∧
      (front ++ [last]).map (·.span.extent) = extents.map Extent.wrapped := by
  induction h generalizing before with
  | nil =>
    obtain ⟨gap, blank, whole, literal, extent⟩ := stands.ending_of_next (Prod.ext hn rfl) end_
    exact ⟨_, .ending whole blank end_ literal, congrArg ([·]) extent⟩
  | cons hnext _ ih =>
    obtain ⟨first, others⟩ := List.forall_mem_cons.mp unended
    obtain ⟨gap, word, blank, here, spells, extent⟩ := stands.word_of_next hnext first
    obtain ⟨extents, laid, reported⟩ := ih others hn here
    exact ⟨_, .word here.split blank spells laid, congrArg₂ List.cons extent reported⟩

end Cursor

section
variable {text : List Char} {label : String} {tokens : List Token} {error : Error}

theorem laid_of_tokenize (h : tokenize text label = .ok tokens) :
    ∃ extents, Laid text [] tokens extents ∧ tokens.map (·.span.extent) = extents.map Extent.wrapped := by
  obtain ⟨front, last, between, rfl, reads, unended, hn, end_⟩ := Cursor.tokens_eq_ok_iff.mp h
  exact reads.laid unended hn end_ (Cursor.stands_ofText text label)

/-- Nothing in the text offends before byte `offset`, where something does. -/
structure FirstOffence (text : List Char) (offset : Nat) (fault : Fault) : Prop where
  offends : Offends text offset fault
  first : ∀ other fault, Offends text other fault → offset ≤ other

theorem firstOffence_of_tokenize (h : tokenize text label = .error error) :
    ∃ offset, FirstOffence text offset error.fault ∧ error.position.offset.toNat = offset % UInt32.size := by
  obtain ⟨cursor, before, stands, offence, position⟩ := stands_of_tokenize h
  refine ⟨Utf8.size before, ⟨⟨before, _, stands.split, rfl, offence⟩, fun _ _ => stands.size_le_of_offends⟩, ?_⟩
  rw [position, Cursor.toNat_position_eq_mod, stands.offset]

end

/-! ### A number far inside its group -/

/-- What lies 2^32 bytes further on is reported at the same place. -/
theorem Token.shift_size (token : Token) : token.shift UInt32.size = token := by
  have same (position : Position) : position.shift UInt32.size = position := by
    rw [Position.shift, show UInt32.ofNat UInt32.size = 0 from rfl, UInt32.add_zero]
  rw [shift, Span.shift, same, same]

/-- The number one in parentheses, with so many spaces in front of it. -/
def spacedGroup (blanks : Nat) : List Char :=
  '(' :: (List.replicate blanks ' ' ++ ['1', ')'])

theorem size_spacedGroup (blanks : Nat) : Utf8.size (spacedGroup blanks) = blanks + 3 := by
  rw [spacedGroup, Utf8.size_cons, Utf8.size_append, Utf8.size_replicate_blank]
  exact Nat.add_comm 1 (blanks + 2)

theorem yields_spacedGroup (blanks : Nat) (label : String) :
    Yields (spacedGroup blanks) label (⟨.openParen, .symbol '(', ⟨⟨0, label⟩, ⟨1, label⟩⟩⟩ ::
      [⟨.integer, .integer 1, ⟨⟨0, label⟩, ⟨1, label⟩⟩⟩,
        ⟨.closeParen, .symbol ')', ⟨⟨1, label⟩, ⟨2, label⟩⟩⟩].map (Token.shift (blanks + 1))) := by
  have opening : Yields ['('] label [⟨.openParen, .symbol '(', ⟨⟨0, label⟩, ⟨1, label⟩⟩⟩] := .symbol (by decide)
  have space : Yields (List.replicate blanks ' ') label [] := by
    obtain ⟨last, alone, -⟩ := tokenize_of_blank fun c (hc : c ∈ List.replicate blanks ' ') =>
      List.eq_of_mem_replicate hc ▸ rfl
    exact ⟨last, alone⟩
  have inner : Yields ['1', ')'] label [⟨.integer, .integer 1, ⟨⟨0, label⟩, ⟨1, label⟩⟩⟩,
      ⟨.closeParen, .symbol ')', ⟨⟨1, label⟩, ⟨2, label⟩⟩⟩] :=
    ⟨⟨.endOfText, .none, ⟨⟨2, label⟩, ⟨2, label⟩⟩⟩, by cbv⟩
  have other : ∀ c ∈ '(' :: List.replicate blanks ' ', c.isDigit = false :=
    List.forall_mem_cons.mpr ⟨rfl, fun c hc => List.eq_of_mem_replicate hc ▸ rfl⟩
  have front := opening.append space (parted_of_forall (List.forall_mem_singleton.mpr rfl))
  have whole := front.append inner (parted_of_forall other)
  have size : Utf8.size (['('] ++ List.replicate blanks ' ') = blanks + 1 := by
    rw [Utf8.size_append, Utf8.size_replicate_blank]
    exact Nat.add_comm 1 blanks
  rwa [size] at whole

/-! ### What is right -/

/-- Whatever the reading of the tokens of a text reports is where it says. -/
structure Located (text : List Char) (label : String) : Prop where
  laid : ∀ tokens, tokenize text label = .ok tokens → Laid text [] tokens (tokens.map (·.span.extent))
  increasing : ∀ tokens, tokenize text label = .ok tokens →
    tokens.Pairwise fun one next => one.span.start.offset < next.span.start.offset
  fault : ∀ error, tokenize text label = .error error →
    FirstOffence text error.position.offset.toNat error.fault

section
variable {text : List Char} {label : String} {tokens : List Token} {error : Error}

theorem located_iff_of_ok (h : tokenize text label = .ok tokens) :
    Located text label ↔ Utf8.size text < UInt32.size := by
  constructor
  · intro located
    -- The size of the text is among what is reported, for the closing token.
    obtain ⟨token, -, last⟩ := List.mem_map.mp (located.laid tokens h).last_mem
    have stop : token.span.extent.stop = Utf8.size text := congrArg Extent.stop last
    exact stop ▸ token.span.stop.offset.toNat_lt_size
  · intro short
    obtain ⟨extents, laid, reported⟩ := laid_of_tokenize h
    have kept : tokens.map (·.span.extent) = extents := by
      rw [reported]
      exact (List.map_congr_left (laid.wrapped_eq short)).trans (List.map_id' extents)
    have ordered := laid.increasing
    rw [← kept] at laid ordered
    refine ⟨fun tokens' h' => ?_, fun tokens' h' => ?_, fun error h' => ?_⟩
    · cases h.symm.trans h'
      exact laid
    · cases h.symm.trans h'
      exact (List.pairwise_map.mp ordered).imp UInt32.lt_iff_toNat_lt.mpr
    · cases h.symm.trans h'

theorem located_iff_of_error {offset : Nat} (h : tokenize text label = .error error)
    (first : FirstOffence text offset error.fault) (reported : error.position.offset.toNat = offset % UInt32.size) :
    Located text label ↔ offset < UInt32.size := by
  constructor
  · intro located
    exact (first.first _ _ (located.fault error h).offends).trans_lt error.position.offset.toNat_lt_size
  · intro short
    rw [Nat.mod_eq_of_lt short] at reported
    refine ⟨fun tokens h' => ?_, fun tokens h' => ?_, fun error' h' => ?_⟩
    · cases h.symm.trans h'
    · cases h.symm.trans h'
    · cases h.symm.trans h'
      exact reported ▸ first

end

/-- The text settles where its tokens are, one behind another, or its first offence, and the remainders by 2^32 are
    what is reported. So all that is reported is right exactly if the text, or what is before the fault, is shorter. -/
theorem offsets_are_exact_iff (text : List Char) (label : String) :
    (∀ tokens, tokenize text label = .ok tokens →
      ∃ extents, (∀ other, Laid text [] tokens other ↔ other = extents) ∧
        extents.Pairwise (fun one next => one.start < next.start) ∧
        tokens.map (·.span.extent) = extents.map Extent.wrapped ∧
        (Located text label ↔ Utf8.size text < UInt32.size)) ∧
    ∀ error, tokenize text label = .error error →
      ∃ offset, FirstOffence text offset error.fault ∧ error.position.offset.toNat = offset % UInt32.size ∧
        (Located text label ↔ offset < UInt32.size) := by
  refine ⟨fun tokens h => ?_, fun error h => ?_⟩
  · obtain ⟨extents, laid, reported⟩ := laid_of_tokenize h
    refine ⟨extents, fun other => ⟨fun laid' => laid'.unique laid, ?_⟩, laid.increasing, reported,
      located_iff_of_ok h⟩
    rintro rfl
    exact laid
  · obtain ⟨offset, first, reported⟩ := firstOffence_of_tokenize h
    exact ⟨offset, first, reported, located_iff_of_error h first reported⟩

/-- The listing of a text with 2^32 - 1 bytes is right, and that of a text with one space more is not. -/
theorem offsets_are_exact_at_limit :
    (∃ tokens, tokenize (spacedGroup (UInt32.size - 4)) "shell" = .ok tokens) ∧
    (∃ tokens, tokenize (spacedGroup (UInt32.size - 3)) "shell" = .ok tokens) ∧
    Located (spacedGroup (UInt32.size - 4)) "shell" ∧ ¬Located (spacedGroup (UInt32.size - 3)) "shell" := by
  obtain ⟨last, near⟩ := yields_spacedGroup (UInt32.size - 4) "shell"
  obtain ⟨last', far⟩ := yields_spacedGroup (UInt32.size - 3) "shell"
  obtain ⟨-, -, -, -, exact_near⟩ := (offsets_are_exact_iff (spacedGroup (UInt32.size - 4)) "shell").1 _ near
  obtain ⟨-, -, -, -, exact_far⟩ := (offsets_are_exact_iff (spacedGroup (UInt32.size - 3)) "shell").1 _ far
  rw [size_spacedGroup] at exact_near exact_far
  exact ⟨⟨_, near⟩, ⟨_, far⟩, exact_near.mpr (by decide), fun located => absurd (exact_far.mp located) (by decide)⟩

/-- The number stands at byte 2^32 and is reported at byte 0, where the parenthesis before it stands. -/
theorem offsets_wrap_in_group :
    Yields (spacedGroup (UInt32.size - 1)) "shell"
      [⟨.openParen, .symbol '(', ⟨⟨0, "shell"⟩, ⟨1, "shell"⟩⟩⟩, ⟨.integer, .integer 1, ⟨⟨0, "shell"⟩, ⟨1, "shell"⟩⟩⟩,
        ⟨.closeParen, .symbol ')', ⟨⟨1, "shell"⟩, ⟨2, "shell"⟩⟩⟩] ∧
    ¬Located (spacedGroup (UInt32.size - 1)) "shell" := by
  have yields := yields_spacedGroup (UInt32.size - 1) "shell"
  rw [show UInt32.size - 1 + 1 = UInt32.size from rfl] at yields
  simp only [List.map_cons, List.map_nil, Token.shift_size] at yields
  refine ⟨yields, fun located => ?_⟩
  obtain ⟨last, h⟩ := yields
  have ordered := List.rel_of_pairwise_cons (located.increasing _ h) List.mem_cons_self
  exact absurd ordered (by decide)

end Polish
