import Mathlib
import Polish.Proofs.Whole

/-! The texts that are accepted, and the trees that they get. In strict mode the whole text has to be a
    formula. In lenient mode the formula ends where a token follows that is no operator; there is at most one
    such place in a text, and what stands behind that token is never read. -/

namespace Polish
open ParseM

variable {text : List Char} {label : String} {mode : Mode} {tokens tokens' : List Token} {stop : Token}
  {shape shape' : Shape} {tree : Tree}

theorem Kind.power?_eq_none_iff {kind : Kind} : kind.power? = none ↔ kind ∉ [plus, minus, times, divide] := by
  cases kind <;> decide

/-! ### Accepted texts -/

/-- A tree comes from a formula at the front of the text, which ends where no operator follows. -/
theorem derives_of_parse (h : parse text label mode = .ok tree) :
    ∃ tokens stop cursor, (Cursor.ofText text label).Reads (tokens ++ [stop]) cursor ∧ stop.kind.power? = none ∧
      (mode = .strict → stop.kind = .endOfText) ∧ Derives .formula tokens tree.shape ∧ Shallow maxDepth tokens ∧
      tree.shape.levels ≤ maxHeight := by
  cases Parsing.of_eq h with
  | @whole parser after tokens tree starts parsed ends hm =>
    have shallow := parsed.shallow
    rw [starts.depth] at shallow
    exact ⟨tokens, after.current, after.cursor, starts.reads parsed.run, ends, hm, parsed.derives, shallow,
      parsed.formed.height_eq ▸ parsed.low⟩

/-- In strict mode exactly the formulas of the grammar within the limits are accepted, and each gets the tree
    that the grammar gives it. -/
theorem strict_accepts_iff (text : List Char) (label : String) (shape : Shape) :
    (∃ tree, parse text label .strict = .ok tree ∧ tree.shape = shape) ↔
      ∃ tokens last, tokenize text label = .ok (tokens ++ [last]) ∧ last.kind = .endOfText ∧
        Derives .formula tokens shape ∧ Shallow maxDepth tokens ∧ shape.levels ≤ maxHeight := by
  constructor
  · intro h
    obtain ⟨tree, h, rfl⟩ := h
    obtain ⟨tokens, last, cursor, hr, -, hm, hd, hs, hl⟩ := derives_of_parse h
    obtain ⟨between, h1, h2⟩ := hr.split
    have first : between.next.1 = .ok last := by
      cases h2 with
      | cons hn _ => rw [hn]
    have more := (hd.steps 0).kind_ne
    refine ⟨tokens, last, ?_, hm rfl, hd, hs, hl⟩
    exact Cursor.tokens_eq_ok_iff.mpr ⟨tokens, last, between, rfl, h1, more, first, hm rfl⟩
  · intro h
    obtain ⟨tokens, last, ht, hk, hd, hs, hl⟩ := h
    obtain ⟨front, last', between, heq, hr, -, hn, -⟩ := Cursor.tokens_eq_ok_iff.mp ht
    obtain ⟨rfl, hlast⟩ := List.append_inj' heq rfl
    cases hlast
    have ends := Kind.power?_of_endOfText hk
    exact parse_of_derives (hr.concat (Prod.ext hn rfl)) hd ends hs hl fun _ => hk

/-! ### Where a formula stops -/

/-- The tokens of the text before this index are a formula within the limits, of the given shape. The token
    at the index can be read, and it is no operator. -/
def StopsAt (text : List Char) (label : String) (index : Nat) (shape : Shape) : Prop :=
  ∃ tokens stop, tokens.length = index ∧ (Cursor.ofText text label).Begins tokens ∧
    (Cursor.ofText text label).nth index = .ok stop ∧ stop.kind ∉ [Kind.plus, .minus, .times, .divide] ∧
    Derives .formula tokens shape ∧ Shallow maxDepth tokens ∧ shape.levels ≤ maxHeight

theorem stopsAt_iff {index : Nat} :
    StopsAt text label index shape ↔
      ∃ tokens stop cursor, tokens.length = index ∧ (Cursor.ofText text label).Reads (tokens ++ [stop]) cursor ∧
        stop.kind.power? = none ∧ Derives .formula tokens shape ∧ Shallow maxDepth tokens ∧
        shape.levels ≤ maxHeight := by
  constructor
  · intro h
    obtain ⟨tokens, stop, rfl, hb, hn, hk, h⟩ := h
    exact ⟨tokens, stop, _, rfl, Cursor.reads_concat_iff.mpr ⟨hb, hn, rfl⟩, Kind.power?_eq_none_iff.mpr hk, h⟩
  · intro h
    obtain ⟨tokens, stop, cursor, rfl, hr, hk, h⟩ := h
    obtain ⟨hb, hn, -⟩ := Cursor.reads_concat_iff.mp hr
    exact ⟨tokens, stop, rfl, hb, hn, Kind.power?_eq_none_iff.mp hk, h⟩

theorem lenient_ok_iff :
    (∃ tree, parse text label .lenient = .ok tree ∧ tree.shape = shape) ↔ ∃ index, StopsAt text label index shape := by
  constructor
  · intro h
    obtain ⟨tree, h, rfl⟩ := h
    obtain ⟨tokens, stop, cursor, hr, ends, -, h⟩ := derives_of_parse h
    exact ⟨tokens.length, stopsAt_iff.mpr ⟨tokens, stop, cursor, rfl, hr, ends, h⟩⟩
  · intro h
    obtain ⟨index, h⟩ := h
    obtain ⟨tokens, stop, cursor, -, hr, ends, hd, hs, hl⟩ := stopsAt_iff.mp h
    exact parse_of_derives hr hd ends hs hl nofun

theorem Derives.not_isPrefix (hd : Derives .formula tokens shape) (ends : stop.kind.power? = none)
    (hd' : Derives .formula tokens' shape') : ¬tokens ++ [stop] <+: tokens' := by
  intro h
  obtain ⟨more, rfl⟩ := h
  obtain ⟨between, h1, -⟩ := (hd'.steps 0).split
  obtain ⟨between', h2, h3⟩ := h1.split
  cases h2.unique (hd.steps 0)
  cases h3 with
  | cons hs _ =>
    cases hs with
    | operator hp =>
      rw [ends] at hp
      cases hp

/-- Of two formulas at the front of one text that both end where no operator follows, none is longer. -/
theorem Derives.length_le {stop' : Token} {cursor after after' : Cursor} (hd : Derives .formula tokens shape)
    (hr : cursor.Reads (tokens ++ [stop]) after) (ends : stop.kind.power? = none)
    (hd' : Derives .formula tokens' shape') (hr' : cursor.Reads (tokens' ++ [stop']) after') :
    tokens'.length ≤ tokens.length := by
  apply Nat.le_of_not_lt
  intro longer
  have short : (tokens ++ [stop]).length ≤ tokens'.length := by
    rw [List.length_append, List.length_singleton]
    omega
  obtain ⟨between, h1, -⟩ := hr'.split
  -- Both formulas are read from one place, so the tokens of one begin those of the other.
  rcases hr.isPrefix_or_isPrefix h1 with hp | hp
  · exact hd.not_isPrefix ends hd' hp
  · rw [hp.eq_of_length_le short] at hd'
    exact hd.not_isPrefix ends hd' (List.prefix_refl _)

theorem StopsAt.unique {index index' : Nat} (h : StopsAt text label index shape)
    (h' : StopsAt text label index' shape') : index = index' := by
  obtain ⟨tokens, stop, cursor, rfl, hr, ends, hd, -⟩ := stopsAt_iff.mp h
  obtain ⟨tokens', stop', cursor', rfl, hr', ends', hd', -⟩ := stopsAt_iff.mp h'
  exact Nat.le_antisymm (hd'.length_le hr' ends' hd hr) (hd.length_le hr ends hd' hr')

theorem StopsAt.run {index : Nat} {parser : Parser} (h : StopsAt text label index shape)
    (starts : parser.Starts text label) : ∃ tokens tree after, tokens.length = index ∧
      formula parser = (.ok tree, after) ∧ tree.shape = shape ∧ parser.Run tokens after := by
  obtain ⟨tokens, stop, cursor, rfl, hr, ends, hd, shallow, low⟩ := stopsAt_iff.mp h
  rw [← Nat.sub_zero maxDepth, ← starts.depth] at shallow
  obtain ⟨tree, after, hf, hshape, -⟩ := formula_of_derives hd (starts.ahead hr (by simp)) ends shallow low
  rcases starts.verdict.split with ⟨tokens', tree', after', hf', parsed, ends'⟩ | ⟨error, after', hf', -⟩
  · rw [hf] at hf'
    cases hf'
    have hr' := starts.reads parsed.run
    refine ⟨tokens', tree, after, ?_, hf, hshape, parsed.run⟩
    exact Nat.le_antisymm (hd.length_le hr ends parsed.derives hr') (parsed.derives.length_le hr' ends' hd hr)
  · rw [hf] at hf'
    cases hf'

/-- Where a formula has been read, the token at which it stops is the only one that is read and not consumed. -/
theorem StopsAt.formula {index : Nat} (h : StopsAt text label index shape) :
    ∃ parser, Parser.ofText? text label = .ok parser ∧ ∀ log, ∃ tree after,
      formula { parser with log } = (.ok tree, after) ∧ tree.shape = shape ∧
      (Cursor.ofText text label).nth index = .ok after.current ∧
      after.cursor = (Cursor.ofText text label).after (index + 1) ∧
      after.cursor.position = after.current.span.stop := by
  obtain ⟨_, _, _, _, hr, -⟩ := stopsAt_iff.mp h
  obtain ⟨token, cursor, hn⟩ := hr.exists_next (by simp)
  refine ⟨⟨cursor, token, 0, Event.ofRead token⟩, by simp only [Parser.ofText?, hn], fun log => ?_⟩
  have starts : Parser.Starts ⟨cursor, token, 0, log⟩ text label := ⟨hn, rfl⟩
  obtain ⟨tokens, tree, after, rfl, hf, hs, run⟩ := h.run starts
  have reads := starts.reads run
  obtain ⟨-, hc, ha⟩ := Cursor.reads_concat_iff.mp reads
  exact ⟨tree, after, hf, hs, hc, ha, reads.position_eq⟩

theorem StopsAt.lexed {index : Nat} (h : StopsAt text label index shape) :
    ∃ read, read.length = index + 1 ∧ (Cursor.ofText text label).Begins read ∧
      Event.lexedIn (parseLogged text label .lenient).2 = read.filter (·.kind ≠ .endOfText) := by
  obtain ⟨_, _, _, _, hr, -⟩ := stopsAt_iff.mp h
  obtain ⟨token, cursor, hn⟩ := hr.exists_next (by simp)
  have starts : (Parser.begun .lenient token cursor).Starts text label := ⟨hn, rfl⟩
  obtain ⟨tokens, tree, after, rfl, hf, -, run⟩ := h.run starts
  obtain ⟨begins, -⟩ := Cursor.reads_iff_begins.mp (starts.reads run)
  refine ⟨tokens ++ [after.current], List.length_append, begins, ?_⟩
  obtain ⟨later, hl, hlog⟩ := run.lexed
  have first : Event.lexedIn (Parser.begun .lenient token cursor).log = [token].filter (·.kind ≠ .endOfText) := by
    rw [Parser.begun, Event.lexedIn_push rfl, Event.lexedIn_ofRead]
  rw [first, ← List.filter_append, List.singleton_append] at hlog
  rw [parseLogged_of_next hn, ← hl]
  simp only [hf]
  -- If a token is left over, that is recorded too, but not as a token.
  by_cases hk : after.current.kind = .endOfText
  · rw [if_pos hk]
    exact hlog
  · rw [if_neg hk]
    exact (Event.lexedIn_push rfl).trans hlog

/-- In lenient mode a text is accepted for the one place in it where a formula stops, and what stands behind
    the token at that place is never read. -/
theorem lenient_stops_at_one_place (text : List Char) (label : String) :
    (∀ shape, (∃ tree, parse text label .lenient = .ok tree ∧ tree.shape = shape) ↔
      ∃ index, StopsAt text label index shape) ∧
    (∀ index index' shape shape', StopsAt text label index shape → StopsAt text label index' shape' →
      index = index') ∧
    ∀ index shape, StopsAt text label index shape →
      (∃ parser, Parser.ofText? text label = .ok parser ∧ ∀ log, ∃ tree after,
        ParseM.formula { parser with log } = (.ok tree, after) ∧ tree.shape = shape ∧
        (Cursor.ofText text label).nth index = .ok after.current ∧
        after.cursor = (Cursor.ofText text label).after (index + 1) ∧
        after.cursor.position = after.current.span.stop) ∧
      ∃ read, read.length = index + 1 ∧ (Cursor.ofText text label).Begins read ∧
        Event.lexedIn (parseLogged text label .lenient).2 = read.filter (·.kind ≠ .endOfText) :=
  ⟨fun _ => lenient_ok_iff, fun _ _ _ _ h h' => h.unique h', fun _ _ h => ⟨h.formula, h.lexed⟩⟩

/-- Behind its first token this text has a fault, which is not met. -/
theorem lenient_stops_before_fault : ∃ index, StopsAt ['1', ' ', '2', ' ', '&'] "s" index (.literal 1) :=
  ((lenient_stops_at_one_place ['1', ' ', '2', ' ', '&'] "s").1 (.literal 1)).mp ⟨_, by cbv, rfl⟩

end Polish
