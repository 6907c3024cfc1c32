import Mathlib
import Polish.Proofs.Calls
import Polish.Proofs.Tiling

/-! The place of a parser in its text. Whatever it is asked to do, and whatever that comes to, it has consumed the
    first tokens of the text in their order and holds the next one, and its cursor stands behind that one with
    nothing but white space in between. -/

namespace Polish
open ParseM

variable {text : List Char} {label : String} {parser : Parser}

/-! ### What a call keeps -/

/-- The parser has consumed the stream of the text up to the token that it holds. A token behind it that could
    not be read has left the cursor beyond the white space. -/
structure Parser.Follows (parser : Parser) (text : List Char) (label : String) : Prop where
  depth : parser.depth ≤ maxDepth
  reads : ∃ cursor, (Cursor.ofText text label).Reads (Event.ateIn parser.log ++ [parser.current]) cursor ∧
    (parser.cursor = cursor ∨ parser.cursor = cursor.skipBlanks)

namespace Parser.Follows

theorem ofText (h : ofText? text label = .ok parser) : parser.Follows text label := by
  unfold ofText? at h
  split at h
  · next token after hn =>
    cases h
    refine ⟨Nat.zero_le _, after, ?_, Or.inl rfl⟩
    simp only [Event.ateIn_ofRead, List.nil_append]
    exact .cons hn .nil
  · cases h

theorem reads_next (h : parser.Follows text label) {next : Token} {after : Cursor}
    (hn : parser.cursor.next = (.ok next, after)) :
    (Cursor.ofText text label).Reads (Event.ateIn parser.log ++ [parser.current] ++ [next]) after := by
  obtain ⟨cursor, reads, rfl | hc⟩ := h.reads
  · exact reads.concat hn
  · rw [hc, Cursor.next_eq_of_skipBlanks_eq cursor.skipBlanks_skipBlanks] at hn
    exact reads.concat hn

theorem skipBlanks (h : parser.Follows text label) :
    { parser with cursor := parser.cursor.skipBlanks }.Follows text label := by
  obtain ⟨cursor, reads, rfl | hc⟩ := h.reads
  · exact ⟨h.depth, _, reads, Or.inr rfl⟩
  · exact ⟨h.depth, cursor, reads, Or.inr (hc ▸ cursor.skipBlanks_skipBlanks)⟩

end Parser.Follows

/-- The computation goes on in the stream of the text, if it goes anywhere. -/
def ParseM.Onward (text : List Char) (label : String) {α : Type} (action : ParseM α) : Prop :=
  ∀ parser : Parser, parser.Follows text label →
    (action parser).2.Follows text label ∧ Event.ateIn parser.log <+: Event.ateIn (action parser).2.log

theorem onward_eat (kind : Kind) : Onward text label (eat kind) := by
  intro parser follows
  by_cases hk : parser.current.kind = kind
  · rcases hn : parser.cursor.next with ⟨error | token, after⟩
    · obtain ⟨-, rfl, -⟩ := Cursor.of_next_eq_error hn
      -- The token is not consumed, but the cursor stays behind the white space.
      rw [eat_of_error hk hn]
      exact ⟨follows.skipBlanks, List.prefix_refl _⟩
    · have ate := parser.ateIn_consume token after
      rw [eat_of_next hk hn]
      refine ⟨⟨follows.depth, after, ?_, Or.inl rfl⟩, ate ▸ List.prefix_append _ _⟩
      rw [ate]
      exact follows.reads_next hn
  · rw [eat_of_ne hk]
    exact ⟨follows, List.prefix_refl _⟩

theorem onward_enterGroup : Onward text label enterGroup := by
  intro parser follows
  unfold enterGroup
  split
  · next lt => exact ⟨⟨lt, follows.reads⟩, List.prefix_refl _⟩
  · exact ⟨follows, List.prefix_refl _⟩

theorem onward_of_same {α : Type} {action : ParseM α} (h : ∀ parser, (action parser).2 = parser) :
    Onward text label action := by
  intro parser follows
  rw [h parser]
  exact ⟨follows, List.prefix_refl _⟩

theorem composed_onward (text : List Char) (label : String) : Composed (Onward text label) where
  pure _ := onward_of_same fun _ => rfl
  bind := by
    intro _ _ first second h h' parser follows
    obtain ⟨follows, more⟩ := h parser follows
    rw [run_bind]
    rcases hf : first parser with ⟨error | value, after⟩
    · rw [hf] at follows more
      exact ⟨follows, more⟩
    · rw [hf] at follows more
      obtain ⟨follows, more'⟩ := h' value after follows
      exact ⟨follows, more.trans more'⟩
  current := onward_of_same fun _ => rfl
  fold operator power parser follows := by
    have ate : Event.ateIn (parser.log.push (.folding operator power)) = Event.ateIn parser.log := by
      simp [Event.ateIn]
    refine ⟨⟨follows.depth, ?_⟩, ?_⟩ <;> simp only [record, ate]
    · exact follows.reads
    · exact List.prefix_refl _
  eat kind _ := onward_eat kind
  refuse _ := onward_of_same fun _ => rfl
  tooHigh _ := onward_of_same fun _ => rfl
  leaveGroup parser follows := ⟨⟨Nat.le_trans (Nat.sub_le _ _) follows.depth, follows.reads⟩, List.prefix_refl _⟩

theorem onward_call (call : Call) : Onward text label call.run := by
  have composed := composed_onward text label
  refine composed.call onward_enterGroup (fun category parser => ?_) (onward_eat _) (onward_of_same fun _ => rfl)
    (fun _ => onward_of_same fun _ => rfl) call
  exact composed.rule onward_enterGroup (onward_of_same fun _ => rfl) _ category parser

theorem onward_after (calls : List Call) (follows : parser.Follows text label) :
    (parser.after calls).Follows text label ∧ Event.ateIn parser.log <+: Event.ateIn (parser.after calls).log := by
  induction calls generalizing parser with
  | nil => exact ⟨follows, List.prefix_refl _⟩
  | cons call calls ih =>
    obtain ⟨follows, more⟩ := onward_call call parser follows
    obtain ⟨follows, more'⟩ := ih follows
    exact ⟨follows, more.trans more'⟩

/-! ### Where a parser stands -/

/-- A parser that has consumed so many tokens of a text. -/
structure Parser.Placed (parser : Parser) (text : List Char) (label : String) (index : Nat) : Prop where
  depth : parser.depth ≤ maxDepth
  /-- What it has consumed is what the stream begins with. -/
  consumed : (Event.ateIn parser.log).length = index ∧ (Cursor.ofText text label).Begins (Event.ateIn parser.log)
  current : (Cursor.ofText text label).nth index = .ok parser.current
  /-- The cursor splits the text between two characters. -/
  boundary : ∃ read, text = read ++ parser.cursor.rest ∧ parser.cursor.offset = Utf8.size read
  blank : BlankBetween text parser.current.span.stop.offset.toNat parser.cursor.offset

theorem Parser.Follows.placed (follows : parser.Follows text label) (short : Utf8.size text < UInt32.size) :
    parser.Placed text label (Event.ateIn parser.log).length := by
  obtain ⟨cursor, reads, hc⟩ := follows.reads
  obtain ⟨begins, current, -⟩ := Cursor.reads_concat_iff.mp reads
  obtain ⟨before, stands⟩ := reads.stands (Cursor.stands_ofText text label)
  obtain ⟨gap, blank, here⟩ :
      ∃ gap, (∀ c ∈ gap, isBlank c = true) ∧ parser.cursor.Stands text (before ++ gap) := by
    rcases hc with rfl | hc
    · exact ⟨[], nofun, (List.append_nil before).symm ▸ stands⟩
    · obtain ⟨gap, blank, here, -⟩ := stands.skipBlanks
      exact ⟨gap, blank, hc ▸ here⟩
  have stop : parser.current.span.stop.offset.toNat = Utf8.size before := by
    rw [← reads.position_eq, stands.toNat_position short, stands.offset]
  exact ⟨follows.depth, ⟨rfl, begins⟩, current, ⟨_, here.split, here.offset⟩,
    before, gap, _, here.split, blank, stop.symm, here.offset.symm⟩

/-- After any calls a parser holds the token of the text that follows those which it has consumed; their number
    never becomes less, and at the end of the text the closing token comes again and again. -/
theorem calls_keep_place (text : List Char) (label : String) (start : Parser) (short : Utf8.size text < UInt32.size)
    (h : Parser.ofText? text label = .ok start) :
    (∃ index : List Call → Nat, (∀ calls, (start.after calls).Placed text label (index calls)) ∧
      ∀ calls more, index calls ≤ index (calls ++ more)) ∧
    ∀ index last, (Cursor.ofText text label).nth index = .ok last → last.kind = .endOfText →
      ∀ more, (Cursor.ofText text label).nth (index + more) = .ok last := by
  have follows (calls : List Call) : (start.after calls).Follows text label :=
    (onward_after calls (.ofText h)).1
  refine ⟨⟨fun calls => (Event.ateIn (start.after calls).log).length, fun calls => ?_, fun calls more => ?_⟩, ?_⟩
  · exact (follows calls).placed short
  · have further : start.after (calls ++ more) = (start.after calls).after more := List.foldl_append
    dsimp only
    rw [further]
    exact (onward_after more (follows calls)).2.length_le
  · exact fun _ _ => Cursor.nth_of_endOfText

/-- The formula fails behind its first parenthesis and leaves a group open, and then a token is asked for that
    cannot be consumed. -/
theorem calls_keep_place_after_failures : Utf8.size ['(', '1', ' ', '&'] < UInt32.size ∧
    ∃ start, Parser.ofText? ['(', '1', ' ', '&'] "s" = .ok start ∧
      (start.after [.formula, .eat .integer, .leaveGroup]).Placed ['(', '1', ' ', '&'] "s" 1 := by
  have short : Utf8.size ['(', '1', ' ', '&'] < UInt32.size := by decide
  refine ⟨short, _, rfl, ?_⟩
  obtain ⟨⟨index, placed, -⟩, -⟩ := calls_keep_place ['(', '1', ' ', '&'] "s" _ short rfl
  have one : index [.formula, .eat .integer, .leaveGroup] = 1 := (placed _).consumed.1.symm.trans (by cbv)
  exact one ▸ placed _

end Polish
