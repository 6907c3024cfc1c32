import Polish.Cursor

/-! The tokens of a text as a stream: what a cursor reads, time after time. A token lies in the text after
    all that was read before it, so in a text whose offsets fit into 32 bits the offsets of the stream
    never decrease. All tokens of a text are a finite part of its stream, up to the closing token or the
    first fault. -/

namespace Polish

/-! ### Lexemes -/

/-- Exactly the integers have an integer as their literal. -/
def Token.Coherent (token : Token) : Prop :=
  token.kind = .integer ↔ ∃ value, token.literal = .integer value

/-- The faults of single tokens. The others are faults of what tokens make up together. -/
def Fault.Lexical : Fault → Prop
  | .unknownCharacter _ | .integerOverflow _ => True
  | .unexpected _ _ | .tooDeep _ => False

theorem Kind.of_ofSymbol? {c : Char} {kind : Kind} (h : Kind.ofSymbol? c = some kind) :
    kind ≠ .endOfText ∧ kind ≠ .integer := by
  unfold Kind.ofSymbol? at h
  split at h <;> cases h <;> exact ⟨nofun, nofun⟩

theorem Utf8.size_eq_length_of_isDigit {digits : List Char} (h : ∀ c ∈ digits, c.isDigit = true) :
    Utf8.size digits = digits.length := by
  induction digits with
  | nil => rfl
  | cons c digits ih =>
    have narrow : c.utf8Size = 1 := by
      have hc := h c List.mem_cons_self
      simp only [Char.isDigit, Bool.and_eq_true, decide_eq_true_eq, UInt32.le_iff_toNat_le] at hc
      refine Char.utf8Size_eq_one_iff.mpr (UInt32.le_iff_toNat_le.mpr (Nat.le_trans hc.2 ?_))
      decide
    rw [Utf8.size_cons, narrow, ih fun c hc => h c (List.mem_cons_of_mem _ hc), List.length_cons, Nat.add_comm]

theorem Utf8.size_replicate_blank (blanks : Nat) : Utf8.size (List.replicate blanks ' ') = blanks := by
  induction blanks with
  | zero => rfl
  | succ blanks ih => rw [List.replicate_succ, Utf8.size_cons, ih, Nat.add_comm]; rfl

namespace Lexeme

/-- A lexeme that is a token: it is not the closing one, its literal goes with its kind, and it is as
    many bytes long as it takes from the text. -/
theorem of_first_eq_token {text : List Char} {kind : Kind} {literal : Literal} {size : Nat} {rest : List Char}
    (h : Lexeme.first text = .token kind literal size rest) :
    kind ≠ .endOfText ∧ (kind = .integer ↔ ∃ value, literal = .integer value) ∧ 0 < size ∧
      size + Utf8.size rest = Utf8.size text := by
  cases text with
  | nil => cases h
  | cons c text =>
    simp only [Lexeme.first] at h
    split at h
    · next hk =>
      cases h
      obtain ⟨h1, h2⟩ := Kind.of_ofSymbol? hk
      refine ⟨h1, ⟨fun h => absurd h h2, ?_⟩, c.utf8Size_pos, (Utf8.size_cons c _).symm⟩
      intro h
      obtain ⟨value, hv⟩ := h
      cases hv
    · split at h
      · next hd =>
        simp only [Lexeme.integer] at h
        split at h
        · cases h
          have digits : ∀ d ∈ c :: text.takeWhile Char.isDigit, d.isDigit = true := by
            intro d hd'
            rcases List.mem_cons.mp hd' with rfl | hd'
            · exact hd
            · exact List.all_eq_true.mp List.all_takeWhile d hd'
          refine ⟨Kind.noConfusion, ⟨fun _ => ⟨_, rfl⟩, fun _ => rfl⟩, Nat.succ_pos _, ?_⟩
          rw [← Utf8.size_eq_length_of_isDigit digits, ← Utf8.size_append, List.cons_append,
            List.takeWhile_append_dropWhile]
        · cases h
      · cases h

theorem lexical_of_first {text : List Char} {fault : Fault} (h : Lexeme.first text = .fault fault) :
    fault.Lexical := by
  cases text with
  | nil => cases h
  | cons c text =>
    simp only [Lexeme.first] at h
    split at h
    · cases h
    · split at h
      · simp only [Lexeme.integer] at h
        split at h <;> cases h
        trivial
      · cases h
        trivial

end Lexeme

namespace Cursor

/-! ### One token -/

/-- The offset of the end of the text. -/
def finish (cursor : Cursor) : Nat :=
  cursor.offset + Utf8.size cursor.rest

theorem finish_ofText (text : List Char) (label : String) : (ofText text label).finish = Utf8.size text :=
  Nat.zero_add _

theorem finish_skipBlanks (cursor : Cursor) : cursor.skipBlanks.finish = cursor.finish := by
  have whole :
      Utf8.size (cursor.rest.takeWhile isBlank) + Utf8.size (trimStart cursor.rest) = Utf8.size cursor.rest := by
    rw [trimStart, ← Utf8.size_append, List.takeWhile_append_dropWhile]
  simp only [finish, skipBlanks, skip]
  omega

theorem offset_le_skipBlanks (cursor : Cursor) : cursor.offset ≤ cursor.skipBlanks.offset :=
  Nat.le_add_right _ _

theorem isBlank_of_head?_skipBlanks {cursor : Cursor} {c : Char} (h : cursor.skipBlanks.rest.head? = some c) :
    isBlank c = false := by
  have := List.head?_dropWhile_not isBlank cursor.rest
  rw [show cursor.rest.dropWhile isBlank = cursor.skipBlanks.rest from rfl, h] at this
  simpa using this

theorem skipBlanks_of_head? {cursor : Cursor} (h : ∀ c, cursor.rest.head? = some c → isBlank c = false) :
    cursor.skipBlanks = cursor := by
  obtain ⟨offset, rest, label⟩ := cursor
  cases rest with
  | nil => rfl
  | cons c rest => simp [skipBlanks, skip, trimStart, h c rfl]

theorem skipBlanks_skipBlanks (cursor : Cursor) : cursor.skipBlanks.skipBlanks = cursor.skipBlanks :=
  skipBlanks_of_head? fun _ => isBlank_of_head?_skipBlanks

/-- What a cursor reads does not depend on how much of the white space before it is skipped already. -/
theorem next_eq_of_skipBlanks_eq {cursor other : Cursor} (h : cursor.skipBlanks = other.skipBlanks) :
    cursor.next = other.next := by
  simp only [next, h]

theorem toNat_position {cursor : Cursor} (h : cursor.offset < UInt32.size) :
    cursor.position.offset.toNat = cursor.offset :=
  UInt32.toNat_ofNat_of_lt' h

theorem label_next (cursor : Cursor) : cursor.next.2.label = cursor.label := by
  simp only [next]
  split <;> rfl

/-- What a cursor does when it reads a token. -/
structure Step (cursor : Cursor) (token : Token) (after : Cursor) : Prop where
  coherent : token.Coherent
  start : token.span.start = cursor.skipBlanks.position
  stop : token.span.stop = after.position
  le : cursor.skipBlanks.offset ≤ after.offset
  lt : token.kind ≠ .endOfText → cursor.skipBlanks.offset < after.offset
  finish : after.finish = cursor.finish

theorem step_of_next {cursor after : Cursor} {token : Token} (h : cursor.next = (.ok token, after)) :
    Step cursor token after := by
  simp only [next] at h
  split at h
  · cases h
    have coherent : Token.Coherent ⟨.endOfText, .none, cursor.skipBlanks.position, cursor.skipBlanks.position⟩ := by
      constructor
      · intro hk
        cases hk
      · intro h
        obtain ⟨value, hv⟩ := h
        cases hv
    exact ⟨coherent, rfl, rfl, Nat.le_refl _, fun more => absurd rfl more, finish_skipBlanks cursor⟩
  · next kind literal size rest first =>
    cases h
    obtain ⟨hk, hl, hpos, hsize⟩ := Lexeme.of_first_eq_token first
    refine ⟨hl, rfl, rfl, Nat.le_add_right _ _, fun _ => Nat.lt_add_of_pos_right hpos, ?_⟩
    rw [← finish_skipBlanks cursor]
    simp only [Cursor.finish, skip]
    omega
  · cases h

/-- A fault is found where the next token would begin, and the cursor stays there. -/
theorem of_next_eq_error {cursor after : Cursor} {error : Error} (h : cursor.next = (.error error, after)) :
    error.position = cursor.skipBlanks.position ∧ after = cursor.skipBlanks ∧ error.fault.Lexical := by
  simp only [next] at h
  split at h
  · cases h
  · cases h
  · next first =>
    cases h
    exact ⟨rfl, rfl, Lexeme.lexical_of_first first⟩

/-- The end of a text is read again and again. -/
theorem next_of_endOfText {cursor after : Cursor} {last : Token} (h : cursor.next = (.ok last, after))
    (hk : last.kind = .endOfText) : after.next = (.ok last, after) := by
  have here : after = cursor.skipBlanks := by
    simp only [next] at h
    split at h
    · cases h
      rfl
    · next first =>
      cases h
      exact absurd hk (Lexeme.of_first_eq_token first).1
    · cases h
  rw [here] at h ⊢
  rw [next_eq_of_skipBlanks_eq cursor.skipBlanks_skipBlanks, h]

namespace Step
variable {cursor after : Cursor} {token : Token}

theorem offset_le (h : Step cursor token after) : cursor.offset ≤ after.offset :=
  Nat.le_trans cursor.offset_le_skipBlanks h.le

theorem span (h : Step cursor token after) (short : cursor.finish < UInt32.size) :
    cursor.offset ≤ token.span.start.offset.toNat ∧
      token.span.start.offset.toNat ≤ token.span.stop.offset.toNat ∧
      (token.kind ≠ .endOfText → token.span.start.offset.toNat < token.span.stop.offset.toNat) ∧
      token.span.stop.offset.toNat = after.offset := by
  have hfin := h.finish
  have hle := h.le
  have hstop : after.position.offset.toNat = after.offset :=
    toNat_position (by unfold Cursor.finish at hfin short; omega)
  have hstart : cursor.skipBlanks.position.offset.toNat = cursor.skipBlanks.offset :=
    toNat_position (by unfold Cursor.finish at hfin short; omega)
  rw [h.start, h.stop, hstart, hstop]
  exact ⟨cursor.offset_le_skipBlanks, hle, h.lt, rfl⟩

end Step

/-! ### Tokens in a row -/

/-- Reading the tokens one after another takes the cursor to `after`. -/
inductive Reads : Cursor → List Token → Cursor → Prop
  | nil {cursor : Cursor} : Reads cursor [] cursor
  | cons {cursor between after : Cursor} {token : Token} {tokens : List Token} :
      cursor.next = (.ok token, between) → Reads between tokens after → Reads cursor (token :: tokens) after

namespace Reads
variable {cursor between after : Cursor} {token : Token} {tokens more : List Token}

theorem append (h : Reads cursor tokens between) (h' : Reads between more after) :
    Reads cursor (tokens ++ more) after := by
  induction h with
  | nil => exact h'
  | cons hn _ ih => exact .cons hn (ih h')

theorem concat (h : Reads cursor tokens between) (hn : between.next = (.ok token, after)) :
    Reads cursor (tokens ++ [token]) after :=
  h.append (.cons hn .nil)

theorem split (h : Reads cursor (tokens ++ more) after) :
    ∃ between, Reads cursor tokens between ∧ Reads between more after := by
  induction tokens generalizing cursor with
  | nil => exact ⟨cursor, .nil, h⟩
  | cons token tokens ih =>
    cases h with
    | cons hn h =>
      obtain ⟨between, h1, h2⟩ := ih h
      exact ⟨between, .cons hn h1, h2⟩

theorem unique {after' : Cursor} (h : Reads cursor tokens after) (h' : Reads cursor tokens after') :
    after = after' := by
  induction h with
  | nil =>
    cases h'
    rfl
  | cons hn _ ih =>
    cases h' with
    | cons hn' h' =>
      rw [hn] at hn'
      cases hn'
      exact ih h'

/-- Of two readings from one cursor, the shorter is a part of the longer. -/
theorem isPrefix_or_isPrefix {after' : Cursor} {tokens' : List Token} (h : Reads cursor tokens after)
    (h' : Reads cursor tokens' after') : tokens <+: tokens' ∨ tokens' <+: tokens := by
  induction h generalizing tokens' with
  | nil => exact Or.inl tokens'.nil_prefix
  | cons hn _ ih =>
    cases h' with
    | nil => exact Or.inr (List.nil_prefix)
    | cons hn' h' =>
      rw [hn] at hn'
      cases hn'
      exact (ih h').imp (List.cons_prefix_cons.mpr ⟨rfl, ·⟩) (List.cons_prefix_cons.mpr ⟨rfl, ·⟩)

theorem isPrefix_of_error {after' : Cursor} {tokens' : List Token} {error : Error} (h : Reads cursor tokens after)
    (h' : Reads cursor tokens' after') (hf : after'.next.1 = .error error) : tokens <+: tokens' := by
  rcases h.isPrefix_or_isPrefix h' with hp | ⟨more, rfl⟩
  · exact hp
  · -- A longer reading would take a token where there is a fault.
    obtain ⟨between, h1, h2⟩ := h.split
    cases h1.unique h'
    cases h2 with
    | nil => exact ⟨[], by simp only [List.append_nil]⟩
    | cons hn _ =>
      rw [hn] at hf
      cases hf

theorem exists_next (h : Reads cursor tokens after) (hne : tokens ≠ []) :
    ∃ first between, cursor.next = (.ok first, between) := by
  cases h with
  | nil => exact absurd rfl hne
  | cons hn _ => exact ⟨_, _, hn⟩

theorem position_eq (h : Reads cursor (tokens ++ [token]) after) : after.position = token.span.stop := by
  obtain ⟨between, -, h'⟩ := h.split
  cases h' with
  | cons hn h =>
    cases h
    exact (step_of_next hn).stop.symm

theorem finish_eq (h : Reads cursor tokens after) : after.finish = cursor.finish := by
  induction h with
  | nil => rfl
  | cons hn _ ih => exact ih.trans (step_of_next hn).finish

theorem offset_le (h : Reads cursor tokens after) : cursor.offset ≤ after.offset := by
  induction h with
  | nil => exact Nat.le_refl _
  | cons hn _ ih => exact Nat.le_trans (step_of_next hn).offset_le ih

/-- The tokens of a reading lie between its two ends, and none but the closing one is empty. -/
theorem span (h : Reads cursor tokens after) (short : cursor.finish < UInt32.size) : ∀ token ∈ tokens,
    cursor.offset ≤ token.span.start.offset.toNat ∧ token.span.stop.offset.toNat ≤ after.offset ∧
      (token.kind ≠ .endOfText → token.span.start.offset.toNat < token.span.stop.offset.toNat) := by
  induction h with
  | nil => exact nofun
  | cons hn h ih =>
    have step := step_of_next hn
    obtain ⟨h1, -, h3, h4⟩ := step.span short
    refine List.forall_mem_cons.mpr ⟨⟨h1, h4.symm ▸ h.offset_le, h3⟩, fun token ht => ?_⟩
    obtain ⟨h5, h6⟩ := ih (step.finish ▸ short) token ht
    exact ⟨Nat.le_trans step.offset_le h5, h6⟩

theorem offset_le_of_error {error : Error} (h : Reads cursor tokens after) (short : cursor.finish < UInt32.size)
    (hf : after.next.1 = .error error) : after.offset ≤ error.position.offset.toNat := by
  obtain ⟨hp, -⟩ := of_next_eq_error (Prod.ext hf rfl)
  have hfin := finish_skipBlanks after
  rw [h.finish_eq] at hfin
  rw [hp, toNat_position (by unfold Cursor.finish at hfin short; omega)]
  exact after.offset_le_skipBlanks

end Reads

/-- The cursor after so many tokens have been read, or tried to be read. -/
def after (cursor : Cursor) : Nat → Cursor
  | 0 => cursor
  | count + 1 => cursor.next.2.after count

theorem after_succ (cursor : Cursor) (count : Nat) : cursor.after (count + 1) = (cursor.after count).next.2 := by
  induction count generalizing cursor with
  | zero => rfl
  | succ count ih => exact ih cursor.next.2

/-- The stream: what reading gives after so many times. -/
def nth (cursor : Cursor) (index : Nat) : Except Error Token :=
  (cursor.after index).next.1

theorem nth_of_endOfText {cursor : Cursor} {index : Nat} {last : Token} (h : cursor.nth index = .ok last)
    (hk : last.kind = .endOfText) (more : Nat) : cursor.nth (index + more) = .ok last := by
  induction more with
  | zero => exact h
  | succ more ih =>
    have here : (cursor.after (index + more)).next = (.ok last, (cursor.after (index + more)).next.2) := Prod.ext ih rfl
    rw [← Nat.add_assoc, nth, after_succ, next_of_endOfText here hk]

/-- The stream begins with these tokens. -/
def Begins (cursor : Cursor) (tokens : List Token) : Prop :=
  ∀ index (h : index < tokens.length), cursor.nth index = .ok tokens[index]

theorem reads_iff_begins {cursor end_ : Cursor} {tokens : List Token} :
    Reads cursor tokens end_ ↔ cursor.Begins tokens ∧ end_ = cursor.after tokens.length := by
  induction tokens generalizing cursor with
  | nil =>
    constructor
    · intro h
      cases h
      exact ⟨nofun, rfl⟩
    · intro h
      obtain ⟨-, rfl⟩ := h
      exact .nil
  | cons token tokens ih =>
    constructor
    · intro h
      cases h with
      | cons hn h =>
        obtain ⟨h1, h2⟩ := ih.mp h
        refine ⟨fun index hi => ?_, ?_⟩
        · cases index with
          | zero => simp only [nth, after, hn, List.getElem_cons_zero]
          | succ index =>
            have := h1 index (Nat.lt_of_succ_lt_succ hi)
            simpa only [nth, after, hn, List.getElem_cons_succ] using this
        · simpa only [after, hn, List.length_cons] using h2
    · intro h
      obtain ⟨h1, h2⟩ := h
      have first : cursor.next = (.ok token, cursor.next.2) :=
        Prod.ext (h1 0 (Nat.succ_pos _)) rfl
      exact .cons first (ih.mpr ⟨fun index hi => h1 (index + 1) (Nat.succ_lt_succ hi), h2⟩)

theorem reads_concat_iff {cursor end_ : Cursor} {tokens : List Token} {token : Token} :
    Reads cursor (tokens ++ [token]) end_ ↔
      cursor.Begins tokens ∧ cursor.nth tokens.length = .ok token ∧ end_ = cursor.after (tokens.length + 1) := by
  constructor
  · intro h
    obtain ⟨between, h1, h2⟩ := h.split
    obtain ⟨-, hend⟩ := reads_iff_begins.mp h
    obtain ⟨hb, rfl⟩ := reads_iff_begins.mp h1
    rw [List.length_append, List.length_singleton] at hend
    cases h2 with
    | cons hn _ => exact ⟨hb, by rw [nth, hn], hend⟩
  · intro h
    obtain ⟨hb, hn, rfl⟩ := h
    have h := (reads_iff_begins.mpr ⟨hb, rfl⟩).concat (Prod.ext hn rfl)
    obtain ⟨-, hend⟩ := reads_iff_begins.mp h
    rw [List.length_append, List.length_singleton] at hend
    rwa [← hend]

/-! ### All tokens -/

/-- What holds of a cursor if it holds of the one behind its token holds of every cursor. -/
theorem onward {motive : Cursor → Prop}
    (step : ∀ cursor, (∀ token after, cursor.next = (.ok token, after) → token.kind ≠ .endOfText → motive after) →
      motive cursor) (cursor : Cursor) : motive cursor := by
  induction hn : cursor.rest.length using Nat.strongRecOn generalizing cursor with
  | ind length ih =>
    exact step cursor fun token after hnext more => ih _ (hn ▸ length_next_lt hnext more) after rfl

theorem reads_to_end (cursor : Cursor) :
    ∃ tokens end_, Reads cursor tokens end_ ∧ (∀ token ∈ tokens, token.kind ≠ .endOfText) ∧
      ∀ token, end_.next.1 = .ok token → token.kind = .endOfText := by
  induction cursor using onward with
  | step cursor ih =>
    rcases hnext : cursor.next with ⟨error | token, between⟩
    · exact ⟨[], cursor, .nil, nofun, fun token h => by rw [hnext] at h; cases h⟩
    · by_cases last : token.kind = .endOfText
      · refine ⟨[], cursor, .nil, nofun, fun token' h => ?_⟩
        rw [hnext] at h
        cases h
        exact last
      · obtain ⟨tokens, end_, h1, h2, h3⟩ := ih token between hnext last
        exact ⟨token :: tokens, end_, .cons hnext h1, List.forall_mem_cons.mpr ⟨last, h2⟩, h3⟩

theorem tokens_of_reads {cursor between : Cursor} {tokens : List Token} (h : Reads cursor tokens between)
    (hk : ∀ token ∈ tokens, token.kind ≠ .endOfText) :
    cursor.tokens = between.tokens.map (tokens ++ ·) := by
  induction h with
  | nil => cases hb : Cursor.tokens _ <;> rfl
  | cons hn _ ih =>
    obtain ⟨h1, h2⟩ := List.forall_mem_cons.mp hk
    rw [tokens_eq, hn]
    simp only [h1, ↓reduceIte]
    rw [ih h2]
    cases Cursor.tokens _ <;> rfl

/-- All tokens of a text are those of its stream up to the first closing one. -/
theorem tokens_eq_ok_iff {cursor : Cursor} {tokens : List Token} :
    cursor.tokens = .ok tokens ↔
      ∃ front last between, tokens = front ++ [last] ∧ Reads cursor front between ∧
        (∀ token ∈ front, token.kind ≠ .endOfText) ∧ between.next.1 = .ok last ∧ last.kind = .endOfText := by
  constructor
  · intro h
    obtain ⟨front, between, h1, h2, h3⟩ := cursor.reads_to_end
    rw [tokens_of_reads h1 h2, tokens_eq] at h
    rcases hn : between.next with ⟨error | last, after⟩
    · rw [hn] at h
      cases h
    · rw [hn] at h
      have hl : last.kind = .endOfText := h3 last (by rw [hn])
      simp only [hl, ↓reduceIte] at h
      cases h
      exact ⟨front, last, between, rfl, h1, h2, by rw [hn], hl⟩
  · intro h
    obtain ⟨front, last, between, rfl, h1, h2, h3, h4⟩ := h
    have hn : between.next = (.ok last, between.next.2) := Prod.ext h3 rfl
    rw [tokens_of_reads h1 h2, tokens_eq, hn]
    simp only [h4, ↓reduceIte]
    rfl

theorem Reads.tokens_eq {cursor after : Cursor} {front : List Token} {last : Token}
    (h : Reads cursor (front ++ [last]) after) (more : ∀ token ∈ front, token.kind ≠ .endOfText)
    (end_ : last.kind = .endOfText) : cursor.tokens = .ok (front ++ [last]) := by
  obtain ⟨between, reads, rest⟩ := h.split
  cases rest with
  | cons hn _ => exact tokens_eq_ok_iff.mpr ⟨front, last, between, rfl, reads, more, by rw [hn], end_⟩

theorem tokens_eq_error_iff {cursor : Cursor} {error : Error} :
    cursor.tokens = .error error ↔
      ∃ front between, Reads cursor front between ∧ (∀ token ∈ front, token.kind ≠ .endOfText) ∧
        between.next.1 = .error error := by
  constructor
  · intro h
    obtain ⟨front, between, h1, h2, h3⟩ := cursor.reads_to_end
    rw [tokens_of_reads h1 h2, tokens_eq] at h
    rcases hn : between.next with ⟨error | last, after⟩
    · rw [hn] at h
      cases h
      exact ⟨front, between, h1, h2, by rw [hn]⟩
    · rw [hn] at h
      have hl : last.kind = .endOfText := h3 last (by rw [hn])
      simp only [hl, ↓reduceIte] at h
      cases h
  · intro h
    obtain ⟨front, between, h1, h2, h3⟩ := h
    have hn : between.next = (.error error, between.next.2) := Prod.ext h3 rfl
    rw [tokens_of_reads h1 h2, tokens_eq, hn]
    rfl

end Cursor

end Polish
