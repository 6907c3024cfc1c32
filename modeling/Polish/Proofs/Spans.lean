import Mathlib
import Polish.Proofs.Records

/-! The tree of a text has all that was consumed but the parentheses. Its words are those tokens in their order, so
    every operation in it lies in the text from its first literal to its last one, with its operator between its
    operands. -/

namespace Polish
open Event

/-! ### Operations of a tree -/

namespace Tree
variable {tree node : Tree}

theorem Formed.exists_first (h : tree.Formed) :
    ∃ first more, tree.words = first :: more ∧ first.kind = .integer ∧ first.span.start = tree.span.start := by
  induction h with
  | literal value span => exact ⟨_, [], rfl, rfl, rfl⟩
  | combine _ _ ihl _ =>
    obtain ⟨first, more, words, kind, start⟩ := ihl
    exact ⟨first, _, congrArg (· ++ _) words, kind, start⟩

theorem Formed.exists_last (h : tree.Formed) :
    ∃ front last, tree.words = front ++ [last] ∧ last.kind = .integer ∧ last.span.stop = tree.span.stop := by
  induction h with
  | literal value span => exact ⟨[], _, rfl, rfl, rfl⟩
  | @combine left _ operator _ _ _ ihr =>
    obtain ⟨front, last, words, kind, stop⟩ := ihr
    refine ⟨left.words ++ operator :: front, last, ?_, kind, stop⟩
    rw [List.append_assoc, List.cons_append, ← words]
    rfl

/-- Every operation in a tree is what its operands make it, and its words stand together in those of the tree. -/
theorem Formed.of_mem_operations (h : tree.Formed) (operated : tree.shape.Operated) (mem : node ∈ tree.operations) :
    ∃ (left : Tree) (operator : Token) (right : Tree), node = left.combine operator right ∧ left.Formed ∧
      right.Formed ∧ operator.kind.power?.isSome ∧ left.words ++ operator :: right.words <:+: tree.words := by
  induction h with
  | literal => cases mem
  | @combine left right operator hl hr ihl ihr =>
    have words : (left.combine operator right).words = left.words ++ operator :: right.words := rfl
    simp only [operations_combine, List.mem_append, List.mem_singleton] at mem
    cases operated with
    | operation operatedl hp operatedr =>
      rcases mem with (mem | mem) | rfl
      · obtain ⟨left', operator', right', heq, hl', hr', hp', part⟩ := ihl operatedl mem
        exact ⟨left', operator', right', heq, hl', hr', hp', part.trans (List.infix_append' [] _ _)⟩
      · obtain ⟨left', operator', right', heq, hl', hr', hp', part⟩ := ihr operatedr mem
        refine ⟨left', operator', right', heq, hl', hr', hp', part.trans ⟨left.words ++ [operator], [], ?_⟩⟩
        simp [words]
      · exact ⟨left, operator, right, rfl, hl, hr, hp, List.infix_rfl⟩

end Tree

/-! ### What was consumed -/

section
variable {text : List Char} {label : String} {mode : Mode} {tree : Tree}

/-- The tokens from which a tree was made are those that the log says were consumed. -/
theorem parsed_of_parse (h : parse text label mode = .ok tree) :
    ∃ parser after, parser.Starts text label ∧
      Parsed .formula parser (ateIn (parseLogged text label mode).2) tree after := by
  have recorded := recorded text label mode
  rw [parse] at h
  generalize parseLogged text label mode = result at h recorded ⊢
  cases recorded with
  | unread | broken => cases h
  | @whole parser after tokens _ _ starts parsed _ _ mirrors _ =>
    cases h
    exact ⟨parser, after, starts, mirrors.ate ▸ parsed⟩

/-! ### Places in the text -/

/-- An operation is one level higher than the higher of its operands. It lies in its text from the first literal of
    the left one to the last literal of the right one, with its operator between the two. -/
structure Tree.Exact (left : Tree) (operator : Token) (right : Tree) (height : Nat) (span : Span) : Prop where
  height_eq : height = max left.shape.levels right.shape.levels + 1
  start : ∃ first more, left.words = first :: more ∧ first.kind = .integer ∧ span.start = first.span.start
  stop : ∃ front last, right.words = front ++ [last] ∧ last.kind = .integer ∧ span.stop = last.span.stop
  after_left : left.span.stop.offset ≤ operator.span.start.offset
  nonempty : operator.span.start.offset < operator.span.stop.offset
  before_right : operator.span.stop.offset ≤ right.span.start.offset
  symbol : ∃ c, operator.literal = .symbol c ∧ (c, operator.kind) ∈ symbols ∧
    operator.kind ∈ [Kind.plus, .minus, .times, .divide]

/-- Operators between their operands, which come one behind another in a text. -/
theorem Tree.exact_of_words {left right : Tree} {operator : Token} (hl : left.Formed) (hr : right.Formed)
    (ordered : (left.words ++ operator :: right.words).Pairwise
      fun one next => one.span.stop.offset.toNat ≤ next.span.start.offset.toNat)
    (nonempty : operator.span.start.offset.toNat < operator.span.stop.offset.toNat)
    (suits : operator.literal.Suits operator.kind) (hp : operator.kind.power?.isSome) :
    Tree.Exact left operator right (left.combine operator right).height (left.combine operator right).span := by
  obtain ⟨first, more, words, kind, start⟩ := hl.exists_first
  obtain ⟨front, last, words', kind', stop⟩ := hr.exists_last
  obtain ⟨front', last', lefts, -, stop'⟩ := hl.exists_last
  obtain ⟨first', more', rights, -, start'⟩ := hr.exists_first
  obtain ⟨-, behind, across⟩ := List.pairwise_append.mp ordered
  refine ⟨?_, ⟨first, more, words, kind, start.symm⟩, ⟨front, last, words', kind', stop.symm⟩, ?_,
    UInt32.lt_iff_toNat_lt.mpr nonempty, ?_, ?_⟩
  · rw [height_combine, hl.height_eq, hr.height_eq]
  · rw [← stop', UInt32.le_iff_toNat_le]
    exact across last' (by simp [lefts]) operator List.mem_cons_self
  · rw [← start', UInt32.le_iff_toNat_le]
    exact List.rel_of_pairwise_cons behind (by simp [rights])
  · obtain ⟨c, literal, symbol⟩ := Literal.symbol_of_suits suits hp
    refine ⟨c, literal, Kind.ofSymbol?_eq_some_iff.mp symbol, ?_⟩
    by_contra other
    rw [Kind.power?_eq_none_iff.mpr other] at hp
    cases hp

end

/-- The tree of a text holds exactly what was consumed, in its order and without the parentheses, and every operation
    in it has the height and the place that this gives it. -/
theorem tree_is_exact (text : List Char) (label : String) (mode : Mode) (tree : Tree)
    (short : Utf8.size text < UInt32.size) (h : parse text label mode = .ok tree) :
    (Cursor.ofText text label).Begins (ateIn (parseLogged text label mode).2) ∧
    tree.words = ungrouped (ateIn (parseLogged text label mode).2) ∧
    (∀ left operator right height span, .operation left operator right height span ∈ tree.operations →
      Tree.Exact left operator right height span) ∧
    ∀ token ∈ tree.words, token.kind = .integer → ∃ value, token.literal = .integer value ∧ 0 ≤ value.toInt := by
  obtain ⟨parser, after, starts, parsed⟩ := parsed_of_parse h
  have reads := starts.reads parsed.run
  obtain ⟨begins, -⟩ := Cursor.reads_concat_iff.mp reads
  rw [← Cursor.finish_ofText text label] at short
  obtain ⟨_, consumed, -⟩ := reads.split
  have words : tree.words.Sublist (ateIn (parseLogged text label mode).2) := parsed.words ▸ List.filter_sublist
  have suits : ∀ token ∈ tree.words, token.literal.Suits token.kind := fun token mem =>
    consumed.suits token (words.subset mem)
  refine ⟨begins, parsed.words, fun left operator right height span mem => ?_, fun token mem hk => ?_⟩
  · obtain ⟨left', operator', right', heq, hl, hr, hp, part⟩ :=
      parsed.formed.of_mem_operations parsed.derives.operated mem
    cases heq
    have here : operator ∈ tree.words := part.subset (by simp)
    -- The tokens of the text come one behind another, and so do those that are words of the operation.
    have ordered := ((consumed.pairwise short).sublist words).sublist part.sublist
    obtain ⟨-, -, nonempty⟩ := consumed.span short operator (words.subset here)
    exact Tree.exact_of_words hl hr ordered (nonempty (Kind.of_isSome_power? hp).1) (suits operator here) hp
  · have suit := suits token mem
    obtain ⟨kind, literal, span⟩ := token
    cases literal with
    | integer value => exact ⟨value, rfl, suit.2⟩
    | symbol c => exact absurd hk (Kind.of_ofSymbol? suit).2
    | none =>
      cases hk
      cases suit

/-- The parentheses of the group have no place in the tree. -/
theorem tree_is_exact_in_group : Utf8.size ['(', '1', '+', '2', ')', '*', '3'] < UInt32.size ∧
    ∃ tree, parse ['(', '1', '+', '2', ')', '*', '3'] "s" .strict = .ok tree ∧
      tree.words = ungrouped (ateIn (parseLogged ['(', '1', '+', '2', ')', '*', '3'] "s" .strict).2) := by
  have short : Utf8.size ['(', '1', '+', '2', ')', '*', '3'] < UInt32.size := by decide
  obtain ⟨tree, parsed⟩ : ∃ tree, parse ['(', '1', '+', '2', ')', '*', '3'] "s" .strict = .ok tree := ⟨_, by cbv⟩
  exact ⟨short, tree, parsed, (tree_is_exact _ "s" .strict tree short parsed).2.1⟩

end Polish
