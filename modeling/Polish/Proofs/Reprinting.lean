import Mathlib
import Polish.Proofs.Printing

/-! Writing a text anew from its tree. The tree that a text is parsed to can be written as a formula, and it needs no
    more parentheses inside each other than the text had, so what is written is accepted and has the same tree, but
    for the places of its parts. -/

namespace Polish

/-! ### The trees of accepted texts -/

/-- What a token was written as goes with its kind. -/
def Literal.Suits : Literal → Kind → Prop
  | .integer value, kind => kind = .integer ∧ 0 ≤ value.toInt
  | .symbol c, kind => Kind.ofSymbol? c = some kind
  | .none, kind => kind = .endOfText

theorem Cursor.suits_of_next {cursor after : Cursor} {token : Token} (h : cursor.next = (.ok token, after)) :
    token.literal.Suits token.kind := by
  simp only [next] at h
  split at h
  · cases h
    rfl
  · next first =>
    cases h
    have view := Lexeme.view_first cursor.skipBlanks.rest
    rw [first] at view
    generalize cursor.skipBlanks.rest = text at view
    cases view with
    | symbol mem => exact Kind.ofSymbol?_eq_some_iff.mpr mem
    | integer _ low =>
      have small : decimal _ < 2 ^ 63 := Nat.lt_of_le_of_lt low (by decide)
      exact ⟨rfl, by rw [Int64.toInt_ofNat_of_lt small]; exact Int.natCast_nonneg _⟩
  · cases h

theorem Cursor.Reads.suits {cursor after : Cursor} {tokens : List Token} (h : cursor.Reads tokens after) :
    ∀ token ∈ tokens, token.literal.Suits token.kind := by
  induction h with
  | nil => exact nofun
  | cons hn _ ih => exact List.forall_mem_cons.mpr ⟨suits_of_next hn, ih⟩

theorem Literal.symbol_of_suits {literal : Literal} {kind : Kind} (h : literal.Suits kind) (hp : kind.power?.isSome) :
    ∃ c, literal = .symbol c ∧ Kind.ofSymbol? c = some kind := by
  obtain ⟨unended, other, -, -⟩ := Kind.of_isSome_power? hp
  cases literal with
  | integer => exact absurd h.1 other
  | symbol c => exact ⟨c, rfl, h⟩
  | none => exact absurd h unended

/-- Every operation of the shape has an operator. -/
inductive Shape.Operated : Shape → Prop
  | literal (value : Int64) : Operated (.literal value)
  | operation {left right : Shape} {kind : Kind} : Operated left → kind.power?.isSome → Operated right →
      Operated (.operation left kind right)

theorem Derives.operated {category : Category} {tokens : List Token} {shape : Shape}
    (h : Derives category tokens shape) : shape.Operated := by
  induction h with
  | integer => exact .literal _
  | group _ _ _ ih | factor _ ih | term _ ih => exact ih
  | product _ hk _ ihl ihr =>
    have hp := Kind.power?_eq_multiplicative_iff.mpr hk
    exact .operation ihl (Option.isSome_of_eq_some hp) ihr
  | sum _ hk _ ihl ihr =>
    have hp := Kind.power?_eq_additive_iff.mpr hk
    exact .operation ihl (Option.isSome_of_eq_some hp) ihr

theorem Tree.Formed.regular {tree : Tree} (h : tree.Formed) (operated : tree.shape.Operated)
    (suits : ∀ token ∈ tree.words, token.literal.Suits token.kind) : tree.Regular := by
  induction h with
  | literal value span => exact .literal (suits _ (List.mem_singleton_self _)).2
  | @combine left right operator _ _ ihl ihr =>
    obtain ⟨lefts, suits⟩ := List.forall_mem_append.mp suits
    obtain ⟨here, rights⟩ := List.forall_mem_cons.mp suits
    cases operated with
    | operation operatedl hp operatedr =>
      obtain ⟨kind, literal, span⟩ := operator
      obtain ⟨c, rfl, hs⟩ := Literal.symbol_of_suits here hp
      exact .operation hp hs (ihl operatedl lefts) (ihr operatedr rights)

/-! ### How far a tree nests -/

section
variable {category category' : Category} {tree : Tree} {room : Nat} {tokens lefts rights : List Token}
  {shape left right : Shape} {operator : Token}

/-- Where a category that holds less tightly is asked for, there are no more parentheses. -/
theorem Tree.Regular.nests_loosen (regular : tree.Regular) (le : category'.grip ≤ category.grip)
    (h : Nests room (tree.printAs category)) : Nests room (tree.printAs category') := by
  have paired := regular.written_print.paired
  by_cases needed : tree.category.grip < category'.grip
  · have needed' := Nat.lt_of_lt_of_le needed le
    rw [printAs, decide_eq_true needed'] at h
    rwa [printAs, decide_eq_true needed]
  · rw [printAs, decide_eq_false needed]
    exact h.of_parenthesized paired

theorem nests_operation (power : Power) (hl : Derives power.category lefts left)
    (hp : operator.kind.power? = some power)
    (ihl : ∀ {tree : Tree} {room : Nat}, tree.Regular → tree.shape = left → Shallow room lefts →
      Nests room (tree.printAs power.category))
    (ihr : ∀ {tree : Tree} {room : Nat}, tree.Regular → tree.shape = right → Shallow room rights →
      Nests room (tree.printAs power.operand))
    (regular : tree.Regular) (heq : tree.shape = .operation left operator.kind right)
    (shallow : Shallow room (lefts ++ operator :: rights)) : Nests room (tree.printAs power.category) := by
  have isSome : operator.kind.power?.isSome := Option.isSome_of_eq_some hp
  obtain ⟨-, -, ho, hc⟩ := Kind.of_isSome_power? isSome
  obtain ⟨shallowl, shallowr⟩ := (Shallow.append_iff hl.even).mp shallow
  rw [Shallow.cons_iff ho hc] at shallowr
  cases regular with
  | literal => cases heq
  | operation _ hs hl' hr' =>
    simp only [Tree.shape, Shape.operation.injEq] at heq
    obtain ⟨heql, rfl, heqr⟩ := heq
    rw [← Tree.category_operation hp, Tree.printAs_category, Tree.print_operation hp]
    refine (nests_operation_iff (hl'.written_print.printAs _).paired hs isSome).mpr ⟨?_, ?_⟩
    · exact ihl hl' heql shallowl
    · exact ihr hr' heqr shallowr

/-- The parentheses that a derivation has are enough for its tree. -/
theorem Derives.nests (h : Derives category tokens shape) (regular : tree.Regular) (heq : tree.shape = shape)
    (shallow : Shallow room tokens) : Nests room (tree.printAs category) := by
  -- The derivation knows where the parentheses were and so how much room each part has; the tree does not.
  induction h generalizing tree room with
  | integer =>
    cases regular with
    | literal low =>
      obtain ⟨number, digits, -, -⟩ := Literal.toList_text low
      have none : (Nat.toDigits 10 number).countP (· = '(') = 0 := countP_toDigits number rfl
      rw [← digits] at none
      exact Nested.of_countP_le (none.trans_le (Nat.zero_le _))
    | operation => cases heq
  | group ho hd hc ih =>
    obtain ⟨hr, shallow⟩ := (Shallow.group_iff ho hc hd.even).mp shallow
    have inner : Nests _ tree.print := ih regular heq shallow
    exact inner.parenthesized regular.written_print.paired hr _
  | factor _ ih | term _ ih => exact regular.nests_loosen (by decide) (ih regular heq shallow)
  | product hl hk _ ihl ihr =>
    exact nests_operation .multiplicative hl (Kind.power?_eq_multiplicative_iff.mpr hk) ihl ihr regular heq shallow
  | sum hl hk _ ihl ihr =>
    exact nests_operation .additive hl (Kind.power?_eq_additive_iff.mpr hk) ihl ihr regular heq shallow

end

variable {text : List Char} {label : String} {mode : Mode} {tree : Tree}

theorem regular_of_parse (h : parse text label mode = .ok tree) :
    tree.Regular ∧ tree.height ≤ maxHeight ∧ Nests maxDepth tree.print := by
  cases Parsing.of_eq h with
  | @whole parser after tokens tree starts parsed _ _ =>
    have reads := starts.reads parsed.run
    have suits : ∀ token ∈ tree.words, token.literal.Suits token.kind := by
      intro token ht
      rw [parsed.words] at ht
      exact reads.suits token (List.mem_append_left _ (List.mem_filter.mp ht).1)
    have regular := parsed.formed.regular parsed.derives.operated suits
    have shallow := parsed.shallow
    rw [starts.depth] at shallow
    exact ⟨regular, parsed.low, parsed.derives.nests regular rfl shallow⟩

theorem parse_print (regular : tree.Regular) (low : tree.height ≤ maxHeight) (nests : Nests maxDepth tree.print)
    (label : String) :
    ∃ tree', parse tree.print label .strict = .ok tree' ∧ tree'.withoutSpans = tree.withoutSpans := by
  obtain ⟨tree', hp, heq⟩ := regular.parse_print low nests label
  obtain ⟨regular', -, -⟩ := regular_of_parse hp
  exact ⟨tree', hp, regular'.withoutSpans_eq regular heq⟩

/-- What is written of a tree within the limits is parsed to that tree and gets its rendering. The tree of any text
    is one of these, so a text that is accepted may be written anew from its tree, which it keeps. -/
theorem print_round_trips :
    (∀ (tree : Tree) (label : String), tree.Regular → tree.height ≤ maxHeight → Nests maxDepth tree.print →
      (∃ tree', parse tree.print label .strict = .ok tree' ∧ tree'.withoutSpans = tree.withoutSpans) ∧
        evaluate tree.print label .strict = .ok tree.render) ∧
    ∀ (text : List Char) (label : String) (mode : Mode) (tree : Tree), parse text label mode = .ok tree →
      tree.Regular ∧ tree.height ≤ maxHeight ∧ Nests maxDepth tree.print ∧
        ∀ label', ∃ tree', parse tree.print label' .strict = .ok tree' ∧ tree'.withoutSpans = tree.withoutSpans := by
  refine ⟨fun tree label regular low nests => ?_, fun text label mode tree h => ?_⟩
  · obtain ⟨tree', hp, heq⟩ := parse_print regular low nests label
    refine ⟨⟨tree', hp, heq⟩, ?_⟩
    rw [evaluate_eq_map_parse, hp, ← tree.render_withoutSpans, ← heq, Tree.render_withoutSpans]
    rfl
  · obtain ⟨regular, low, nests⟩ := regular_of_parse h
    exact ⟨regular, low, nests, parse_print regular low nests⟩

/-- The parentheses around the differences and the quotient are needed, and the product needs none. -/
theorem print_round_trips_nested : ∃ tree : Tree, tree.Regular ∧ tree.height ≤ maxHeight ∧ Nests maxDepth tree.print ∧
    tree.print = "(8 - (1 - 1)) * (2 / 2)".toList ∧
    (∃ tree', parse tree.print "s" .strict = .ok tree' ∧ tree'.withoutSpans = tree.withoutSpans) ∧
    evaluate tree.print "s" .strict = .ok "(* (- 8 (- 1 1)) (/ 2 2))" := by
  let place : Span := ⟨.null, .null⟩
  let one : Tree := .literal 1 place
  let two : Tree := .literal 2 place
  let tree : Tree :=
    .operation
      (.operation (.literal 8 place) ⟨.minus, .symbol '-', place⟩
        (.operation one ⟨.minus, .symbol '-', place⟩ one 1 place) 2 place)
      ⟨.times, .symbol '*', place⟩ (.operation two ⟨.divide, .symbol '/', place⟩ two 1 place) 3 place
  have ones : one.Regular := .literal (by decide)
  have twos : two.Regular := .literal (by decide)
  have regular : tree.Regular :=
    .operation rfl rfl (.operation rfl rfl (.literal (by decide)) (.operation rfl rfl ones ones))
      (.operation rfl rfl twos twos)
  have text : tree.print = "(8 - (1 - 1)) * (2 / 2)".toList := by decide
  have nests : Nests maxDepth tree.print := Nested.of_countP_le (by rw [text]; decide)
  obtain ⟨parsed, rendered⟩ := print_round_trips.1 tree "s" regular (by decide) nests
  exact ⟨tree, regular, by decide, nests, text, parsed, rendered⟩

end Polish
