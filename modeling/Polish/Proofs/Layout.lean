import Mathlib
import Polish.Proofs.Concatenation
import Polish.Proofs.Correspondence

/-! White space between tokens. Texts whose streams say the same, wherever they say it, have the same rendering or
    the same fault, and the fault is at the same index of both streams. White space changes what a stream says only
    if it comes between two digits. -/

namespace Polish

/-! ### Streams -/

/-- What a reading says, wherever in the text it stands. -/
def said : Except Error Token → Except Fault (Kind × Literal)
  | .ok token => .ok (token.kind, token.literal)
  | .error error => .error error.fault

/-- Where the token starts that was read, or where the fault is. -/
def place : Except Error Token → Position
  | .ok token => token.span.start
  | .error error => error.position

namespace Cursor

/-- What reading gives from here on, up to the end of the text or the first fault. -/
def stream (cursor : Cursor) : List (Except Error Token) :=
  match h : cursor.next with
  | (.error error, _) => [.error error]
  | (.ok token, after) =>
    if more : token.kind = .endOfText then [.ok token]
    else
      have := length_next_lt h more
      .ok token :: after.stream
termination_by cursor.rest.length

theorem stream_eq (cursor : Cursor) :
    cursor.stream =
      match cursor.next with
      | (.error error, _) => [.error error]
      | (.ok token, after) => if token.kind = .endOfText then [.ok token] else .ok token :: after.stream := by
  rw [stream]
  split
  · next h => simp only [h]
  · next h => simp only [h, dite_eq_ite]

theorem head?_stream (cursor : Cursor) : cursor.stream.head? = some cursor.next.1 := by
  rw [stream_eq]
  rcases cursor.next with ⟨error | token, after⟩
  · rfl
  · dsimp only
    split <;> rfl

theorem stream_of_error {cursor : Cursor} {error : Error} (h : cursor.next.1 = .error error) :
    cursor.stream = [.error error] := by
  have next : cursor.next = (.error error, cursor.next.2) := Prod.ext h rfl
  rw [stream_eq, next]

theorem tail_stream {cursor after : Cursor} {token : Token} (h : cursor.next = (.ok token, after))
    (more : token.kind ≠ .endOfText) : cursor.stream.tail = after.stream := by
  rw [stream_eq, h]
  dsimp only
  rw [if_neg more, List.tail_cons]

theorem stream_eq_of_skipBlanks_eq {cursor other : Cursor} (h : cursor.skipBlanks = other.skipBlanks) :
    cursor.stream = other.stream := by
  rw [stream_eq, next_eq_of_skipBlanks_eq h, ← stream_eq]

theorem Reads.stream_eq {cursor between : Cursor} {tokens : List Token} (h : Reads cursor tokens between)
    (unended : ∀ token ∈ tokens, token.kind ≠ .endOfText) :
    cursor.stream = tokens.map .ok ++ between.stream := by
  induction h with
  | nil => rfl
  | cons hn _ ih =>
    obtain ⟨first, others⟩ := List.forall_mem_cons.mp unended
    rw [Cursor.stream_eq, hn]
    dsimp only
    rw [if_neg first, ih others, List.map_cons, List.cons_append]

theorem said_stream_shift (cursor : Cursor) (bytes : Nat) :
    (cursor.shift bytes).stream.map said = cursor.stream.map said := by
  induction cursor using onward with
  | step cursor ih =>
    rw [stream_eq, stream_eq cursor, next_shift]
    rcases hn : cursor.next with ⟨error | token, after⟩
    · rfl
    · have kind : (token.shift bytes).kind = token.kind := rfl
      simp only [Except.map, Except.mapError, kind]
      split
      · rfl
      · next more =>
        rw [List.map_cons, List.map_cons, ih token after hn more]
        rfl

/-- No two readings of a stream are at one place. -/
theorem pairwise_stream {cursor : Cursor} (short : cursor.finish < UInt32.size) :
    (∀ reading ∈ cursor.stream, cursor.offset ≤ (place reading).offset.toNat) ∧
      cursor.stream.Pairwise fun one next => (place one).offset.toNat < (place next).offset.toNat := by
  induction cursor using onward with
  | step cursor ih =>
    rw [stream_eq]
    rcases hn : cursor.next with ⟨error | token, after⟩
    · have here : cursor.offset ≤ error.position.offset.toNat := Reads.nil.offset_le_of_error short (by rw [hn])
      exact ⟨List.forall_mem_singleton.mpr here, List.pairwise_singleton ..⟩
    · have step := step_of_next hn
      obtain ⟨start, -, lt, stop⟩ := step.span short
      dsimp only
      split
      · exact ⟨List.forall_mem_singleton.mpr start, List.pairwise_singleton ..⟩
      · next more =>
        -- No token but the closing one is empty, so all that follows is at later places.
        obtain ⟨behind, pairwise⟩ := ih token after hn more (step.finish ▸ short)
        have later : ∀ reading ∈ after.stream, token.span.start.offset.toNat < (place reading).offset.toNat :=
          fun reading mem => (lt more).trans_le (stop.trans_le (behind reading mem))
        exact ⟨List.forall_mem_cons.mpr ⟨start, fun reading mem => start.trans (later reading mem).le⟩,
          .cons later pairwise⟩

end Cursor

/-- What the stream of a text says. -/
def wording (text : List Char) (label : String) : List (Except Fault (Kind × Literal)) :=
  (Cursor.ofText text label).stream.map said

/-- In the stream of the text, the reading with this index is at the position, and no other is. -/
def Locates (text : List Char) (label : String) (index : Nat) (position : Position) : Prop :=
  ∀ other, ((Cursor.ofText text label).stream[other]?).map place = some position ↔ other = index

theorem locates_of_short {text : List Char} {label : String} {index : Nat} {position : Position}
    (short : Utf8.size text < UInt32.size)
    (h : ((Cursor.ofText text label).stream[index]?).map place = some position) :
    Locates text label index position := by
  refine fun other => ⟨fun h' => ?_, fun heq => heq ▸ h⟩
  rw [← Cursor.finish_ofText text label] at short
  obtain ⟨-, pairwise⟩ := Cursor.pairwise_stream short
  have nodup : ((Cursor.ofText text label).stream.map place).Nodup :=
    List.pairwise_map.mpr (pairwise.imp fun lt heq => absurd (heq ▸ lt) (Nat.lt_irrefl _))
  rw [← List.getElem?_map] at h h'
  obtain ⟨low, -⟩ := List.getElem?_eq_some_iff.mp h'
  exact (List.getElem?_inj low nodup).mp (h'.trans h.symm)

/-! ### Streams that say the same -/

theorem results_of_said {places : Places} {one other : Except Error Token} (same : said one = said other)
    (start : places.start (place one) (place other)) (stop : ∀ position position', places.stop position position') :
    places.Results places.Tokens one other := by
  rcases one with error | token <;> rcases other with error' | token'
  · exact .error ⟨Except.error.inj same, start⟩
  · cases same
  · cases same
  · obtain ⟨kind, literal⟩ := Prod.mk.inj (Except.ok.inj same)
    exact .ok ⟨kind, literal, start, stop _ _⟩

/-- Readings with one index stand at places that correspond. -/
def places (one other : List (Except Error Token)) : Places where
  start position position' :=
    ∃ index : Nat, (one[index]?).map place = some position ∧ (other[index]?).map place = some position'
  stop _ _ := True

/-- Cursors correspond that have come to one index of streams which say the same. -/
def layout {one other : List (Except Error Token)} (same : one.map said = other.map said) : Correspondence where
  toPlaces := places one other
  cursors cursor cursor' := ∃ index, cursor.stream = one.drop index ∧ cursor'.stream = other.drop index
  next := by
    rintro cursor cursor' ⟨index, hc, hc'⟩
    have here : one[index]? = some cursor.next.1 := by rw [← List.head?_drop, ← hc, cursor.head?_stream]
    have here' : other[index]? = some cursor'.next.1 := by rw [← List.head?_drop, ← hc', cursor'.head?_stream]
    have saying : said cursor.next.1 = said cursor'.next.1 := by
      have entries := congrArg (·[index]?) same
      simpa only [List.getElem?_map, here, here', Option.map_some, Option.some.injEq] using entries
    have start : (places one other).start (place cursor.next.1) (place cursor'.next.1) :=
      ⟨index, congrArg (Option.map place) here, congrArg (Option.map place) here'⟩
    have results := results_of_said saying start fun _ _ => trivial
    rcases hn : cursor.next with ⟨result, after⟩
    rcases hn' : cursor'.next with ⟨result', after'⟩
    rw [hn, hn'] at results
    cases results with
    | error errors => exact .error errors
    | ok tokens =>
      refine .ok tokens fun more => ⟨index + 1, ?_, ?_⟩
      · rw [← Cursor.tail_stream hn more, hc, List.tail_drop]
      · rw [← Cursor.tail_stream hn' (tokens.kind ▸ more), hc', List.tail_drop]

theorem evaluate_of_wording {x y : List Char} {label : String} (same : wording x label = wording y label)
    (mode : Mode) :
    (evaluate x label mode).mapError Error.fault = (evaluate y label mode).mapError Error.fault ∧
      ∀ error error', evaluate x label mode = .error error → evaluate y label mode = .error error' →
        ∃ index : Nat, ((Cursor.ofText x label).stream[index]?).map place = some error.position ∧
          ((Cursor.ofText y label).stream[index]?).map place = some error'.position := by
  have results := (layout same).parse ⟨0, rfl, rfl⟩ mode
  refine ⟨?_, fun error error' h h' => ?_⟩
  · rw [evaluate_eq_map_parse, evaluate_eq_map_parse]
    exact results.mapError_map fun _ _ trees => trees.render_eq
  · rw [evaluate_eq_error_iff.mp h, evaluate_eq_error_iff.mp h'] at results
    cases results with
    | error errors => exact errors.position

/-! ### White space -/

/-- What a text says does not depend on how another goes on behind it, unless a number does. -/
theorem wording_append (text : List Char) (label : String) :
    (∀ more, Parted text more → wording (text ++ more) label = wording text label) ∨
      ∃ front, ∀ more, Parted text more → wording (text ++ more) label = front ++ wording more label := by
  obtain ⟨front, between, reads, unended, ends⟩ := (Cursor.ofText text label).reads_to_end
  have longer {more : List Char} (parted : Parted text more) : wording (text ++ more) label =
      (front.map .ok).map said ++ (between.extend more).stream.map said := by
    rw [wording, ← Cursor.extend_ofText, (reads.extend unended parted).1.stream_eq unended, List.map_append]
  rcases hn : between.next.1 with error | last
  · -- The first text has a fault, and nothing behind a fault is read.
    refine Or.inl fun more parted => ?_
    have next := Cursor.next_extend_of_error (Prod.ext hn rfl) (reads.extend unended parted).2
    have fault : (between.extend more).next.1 = .error error := by rw [next]
    rw [longer parted, Cursor.stream_of_error fault, wording, reads.stream_eq unended, Cursor.stream_of_error hn,
      List.map_append]
  · -- The first text is read to its end, and from there the other as if it began there.
    refine Or.inr ⟨(front.map .ok).map said, fun more parted => ?_⟩
    have seam := Cursor.skipBlanks_extend_of_rest_eq_nil (Cursor.rest_skipBlanks_of_endOfText hn (ends last hn)) more
    rw [reads.label_eq] at seam
    rw [longer parted, Cursor.stream_eq_of_skipBlanks_eq seam, Cursor.said_stream_shift]
    rfl

theorem wording_of_blank {gap : List Char} (blank : ∀ c ∈ gap, isBlank c = true) (text : List Char) (label : String) :
    wording (gap ++ text) label = wording text label := by
  have empty : (Cursor.ofText gap label).skipBlanks.rest = [] := List.dropWhile_eq_nil_iff.mpr blank
  have seam := Cursor.skipBlanks_extend_of_rest_eq_nil empty text
  rw [Cursor.extend_ofText] at seam
  rw [wording, Cursor.stream_eq_of_skipBlanks_eq seam, Cursor.said_stream_shift]
  rfl

theorem parted_of_blank {before gap after : List Char} (blank : ∀ c ∈ gap, isBlank c = true)
    (h : gap ≠ [] ∨ Parted before after) : Parted before (gap ++ after) := by
  cases gap with
  | nil => exact h.resolve_left fun nonempty => nonempty rfl
  | cons c gap =>
    intro _ d _ hd _
    cases hd
    refine Bool.eq_false_iff.mpr fun digit => ?_
    have other := not_isBlank_of_isDigit digit
    rw [blank c List.mem_cons_self] at other
    cases other

/-- Where white space stands between two texts, or may stand, there may be any other. -/
theorem wording_of_gap (label : String) (before gap gap' after : List Char) (blank : ∀ c ∈ gap, isBlank c = true)
    (blank' : ∀ c ∈ gap', isBlank c = true) (h : gap ≠ [] ∨ Parted before after)
    (h' : gap' ≠ [] ∨ Parted before after) :
    wording (before ++ gap ++ after) label = wording (before ++ gap' ++ after) label := by
  have parted := parted_of_blank blank h
  have parted' := parted_of_blank blank' h'
  rw [List.append_assoc, List.append_assoc]
  rcases wording_append before label with same | ⟨front, split⟩
  · rw [same _ parted, same _ parted']
  · rw [split _ parted, split _ parted', wording_of_blank blank, wording_of_blank blank']

/-- Streams that say the same have the same rendering, or the same fault at the same index. So white space may be put
    wherever it does not come between two digits, and any that is there may be replaced by other. -/
theorem layout_does_not_matter (label : String) (mode : Mode) :
    (∀ x y, Utf8.size x < UInt32.size → Utf8.size y < UInt32.size → wording x label = wording y label →
      (evaluate x label mode).mapError Error.fault = (evaluate y label mode).mapError Error.fault ∧
      ∀ error error', evaluate x label mode = .error error → evaluate y label mode = .error error' →
        ∃ index, Locates x label index error.position ∧ Locates y label index error'.position) ∧
    (∀ before gap after, (∀ c ∈ gap, isBlank c = true) → Parted before after →
      (evaluate (before ++ gap ++ after) label mode).mapError Error.fault =
        (evaluate (before ++ after) label mode).mapError Error.fault) ∧
    ∀ before gap gap' after, (∀ c ∈ gap, isBlank c = true) → (∀ c ∈ gap', isBlank c = true) →
      gap ≠ [] → gap' ≠ [] →
      (evaluate (before ++ gap ++ after) label mode).mapError Error.fault =
        (evaluate (before ++ gap' ++ after) label mode).mapError Error.fault := by
  refine ⟨fun x y short short' same => ?_, fun before gap after blank parted => ?_,
    fun before gap gap' after blank blank' filled filled' => ?_⟩
  · obtain ⟨result, position⟩ := evaluate_of_wording same mode
    refine ⟨result, fun error error' h h' => ?_⟩
    obtain ⟨index, here, here'⟩ := position error error' h h'
    exact ⟨index, locates_of_short short here, locates_of_short short' here'⟩
  · have same := wording_of_gap label before gap [] after blank nofun (.inr parted) (.inr parted)
    rw [List.append_nil] at same
    exact (evaluate_of_wording same mode).1
  · have same := wording_of_gap label before gap gap' after blank blank' (.inl filled) (.inl filled')
    exact (evaluate_of_wording same mode).1

/-- An open group is refused at the end of the text, at the same index whatever white space is in it. -/
theorem layout_does_not_matter_in_open_group :
    ∃ error error', evaluate ['(', '1', '+', '2'] "s" .strict = .error error ∧
      evaluate [' ', '(', '1', '\u3000', '+', '\n', '2', ' '] "s" .strict = .error error' ∧
      (∃ index, Locates ['(', '1', '+', '2'] "s" index error.position ∧
        Locates [' ', '(', '1', '\u3000', '+', '\n', '2', ' '] "s" index error'.position) ∧
      (evaluate (['(', '1'] ++ [' '] ++ ['+', '2']) "s" .strict).mapError Error.fault =
        .error (.unexpected "\x60RParen\x60" "end of input") ∧
      (evaluate (['(', '1'] ++ ['\u0085', ' '] ++ ['+', '2']) "s" .strict).mapError Error.fault =
        .error (.unexpected "\x60RParen\x60" "end of input") := by
  have refused : evaluate ['(', '1', '+', '2'] "s" .strict =
      .error ⟨.unexpected "\x60RParen\x60" "end of input", ⟨4, "s"⟩⟩ := by cbv
  have refused' : evaluate [' ', '(', '1', '\u3000', '+', '\n', '2', ' '] "s" .strict =
      .error ⟨.unexpected "\x60RParen\x60" "end of input", ⟨10, "s"⟩⟩ := by cbv
  have same : wording ['(', '1', '+', '2'] "s" = wording [' ', '(', '1', '\u3000', '+', '\n', '2', ' '] "s" := by cbv
  have parted : Parted (['('] ++ ['1']) ['+', '2'] := by
    intro _ d _ hd _
    cases hd
    rfl
  obtain ⟨streams, inserted, replaced⟩ := layout_does_not_matter "s" .strict
  have space : ∀ c ∈ [' '], isBlank c = true := List.forall_mem_singleton.mpr rfl
  have wide : ∀ c ∈ ['\u0085', ' '], isBlank c = true := List.forall_mem_cons.mpr ⟨rfl, space⟩
  have put := (inserted ['(', '1'] [' '] ['+', '2'] space parted).trans (congrArg (Except.mapError Error.fault) refused)
  refine ⟨_, _, refused, refused', (streams _ _ (by decide) (by decide) same).2 _ _ refused refused', put, ?_⟩
  exact (replaced ['(', '1'] _ _ ['+', '2'] wide space (List.cons_ne_nil _ _) (List.cons_ne_nil _ _)).trans put

end Polish
