import Mathlib
import Polish.Proofs.Tiling
import Polish.Proofs.Whole

/-! Writing a tree as a formula, with no more parentheses than its operators need. Read from wherever it stands, the
    text is a derivation of the shape of the tree, so parsing it gives this shape again. -/

namespace Polish

/-! ### Writing -/

/-- The text, between parentheses if they are needed. -/
def parenthesized (needed : Bool) (text : List Char) : List Char :=
  if needed then '(' :: text ++ [')'] else text

/-- The parentheses of a text are never more than `room` inside each other. -/
def Nests (room : Nat) (text : List Char) : Prop :=
  Nested (· = '(') (· = ')') room text

namespace Tree

/-- The power of the operator at the top; a literal has none. -/
def power? : Tree → Option Power
  | literal _ _ => none
  | operation _ operator _ _ _ => operator.kind.power?

/-- The tree is an operation whose power compares like this with that of an operator beside it. -/
def compares (way : Ordering → Bool) (operator : Token) (tree : Tree) : Bool :=
  match tree.power?, operator.kind.power? with
  | some inner, some outer => way (compare inner outer)
  | _, _ => false

/-- On its left an operator needs parentheses around an operation of less power, on its right around one of the
    same power too. -/
def print : Tree → List Char
  | literal value _ => (Literal.integer value).text.toList
  | operation left operator right _ _ =>
    parenthesized (left.compares Ordering.isLT operator) left.print ++
      ' ' :: (operator.literal.text.toList ++ ' ' :: parenthesized (right.compares Ordering.isLE operator) right.print)

/-- A tree that a formula can have. Its numbers are not negative, an operator is written as its symbol, and an
    operation keeps its height. -/
inductive Regular : Tree → Prop
  | literal {value : Int64} {span : Span} : 0 ≤ value.toInt → Regular (.literal value span)
  | operation {left right : Tree} {kind : Kind} {symbol : Char} {place span : Span} : kind.power?.isSome →
      Kind.ofSymbol? symbol = some kind → Regular left → Regular right →
      Regular (.operation left ⟨kind, .symbol symbol, place⟩ right (max left.height right.height + 1) span)

/-- The tree with the places of its parts taken out. -/
def withoutSpans : Tree → Tree
  | literal value _ => literal value ⟨.null, .null⟩
  | operation left operator right height _ =>
    operation left.withoutSpans { operator with span := ⟨.null, .null⟩ } right.withoutSpans height ⟨.null, .null⟩

theorem render_withoutSpans (tree : Tree) : tree.withoutSpans.render = tree.render := by
  induction tree with
  | literal => rfl
  | operation left operator right _ _ ihl ihr => rw [withoutSpans, render, ihl, ihr, render]

namespace Regular
variable {tree other : Tree}

theorem levels_eq (h : tree.Regular) : tree.shape.levels = tree.height := by
  induction h with
  | literal => rfl
  | operation _ _ _ _ ihl ihr => rw [shape, Shape.levels, ihl, ihr, height]

/-- The shape of a regular tree leaves nothing open but the places. -/
theorem withoutSpans_eq (h : tree.Regular) (h' : other.Regular) (heq : tree.shape = other.shape) :
    tree.withoutSpans = other.withoutSpans := by
  induction h generalizing other with
  | literal =>
    cases h' with
    | literal =>
      cases heq
      rfl
    | operation => cases heq
  | @operation left right _ symbol _ _ _ hs hl hr ihl ihr =>
    cases h' with
    | literal => cases heq
    | @operation left' right' _ symbol' _ _ _ hs' hl' hr' =>
      simp only [shape, Shape.operation.injEq] at heq
      obtain ⟨heql, rfl, heqr⟩ := heq
      -- The kinds leave only one symbol for each operator, and the levels only one height.
      have symbols : symbol = symbol' := Kind.ofSymbol?_injective hs hs'
      have heights : left.height = left'.height ∧ right.height = right'.height := by
        rw [← hl.levels_eq, ← hl'.levels_eq, ← hr.levels_eq, ← hr'.levels_eq, heql, heqr]
        exact ⟨rfl, rfl⟩
      rw [withoutSpans, withoutSpans, ihl hl' heql, ihr hr' heqr, symbols, heights.1, heights.2]

end Regular

end Tree

/-! ### Operands -/

/-- How tightly the category holds: what is of one category is also of those that hold less tightly. -/
def Category.grip : Category → Nat
  | .formula => 0
  | .term => 1
  | .factor => 2

theorem Derives.loosen {category category' : Category} {tokens : List Token} {shape : Shape}
    (h : Derives category tokens shape) (le : category'.grip ≤ category.grip) : Derives category' tokens shape := by
  cases category with
  | formula =>
    cases category' with
    | formula => exact h
    | term | factor => exact absurd le (by decide)
  | term =>
    cases category' with
    | formula => exact .term h
    | term => exact h
    | factor => exact absurd le (by decide)
  | factor =>
    cases category' with
    | formula => exact .term (.factor h)
    | term => exact .factor h
    | factor => exact h

namespace Tree

/-- The category that the text of a tree is of by itself. -/
def category (tree : Tree) : Category :=
  match tree.power? with
  | none => .factor
  | some power => power.category

/-- Writes the tree where the grammar asks for this category. -/
def printAs (category : Category) (tree : Tree) : List Char :=
  parenthesized (tree.category.grip < category.grip) tree.print

theorem printAs_category (tree : Tree) : tree.printAs tree.category = tree.print := by
  simp [printAs, parenthesized]

theorem compares_eq {way : Ordering → Bool} {operator : Token} {power : Power} {outer : Category} (tree : Tree)
    (hp : operator.kind.power? = some power)
    (h : ∀ inner, way (compare inner power) = decide (inner.category.grip < outer.grip)) :
    tree.compares way operator = decide (tree.category.grip < outer.grip) := by
  rcases ht : tree.power? with _ | inner
  · have whole : ¬Category.factor.grip < outer.grip := by cases outer <;> decide
    simp [compares, category, ht, whole]
  · simp [compares, category, ht, hp, h inner]

section
variable {left right : Tree} {kind : Kind} {symbol : Char} {place span : Span} {height : Nat} {power : Power}

theorem category_operation (hp : kind.power? = some power) :
    (operation left ⟨kind, .symbol symbol, place⟩ right height span).category = power.category := by
  simp only [category, power?, hp]

theorem print_operation (hp : kind.power? = some power) :
    (operation left ⟨kind, .symbol symbol, place⟩ right height span).print =
      left.printAs power.category ++ ' ' :: symbol :: ' ' :: right.printAs power.operand := by
  have lefts : left.compares Ordering.isLT ⟨kind, .symbol symbol, place⟩ =
      decide (left.category.grip < power.category.grip) :=
    left.compares_eq hp fun inner => by cases inner <;> cases power <;> rfl
  have rights : right.compares Ordering.isLE ⟨kind, .symbol symbol, place⟩ =
      decide (right.category.grip < power.operand.grip) :=
    right.compares_eq hp fun inner => by cases inner <;> cases power <;> rfl
  have text : (Literal.symbol symbol).text.toList = [symbol] := by simp [Literal.text]
  rw [print, lefts, rights, text, printAs, printAs]
  rfl

end

end Tree

/-! ### Numbers -/

theorem decimal_toDigits (number : Nat) : decimal (Nat.toDigits 10 number) = number := by
  have value : Nat.ofDigitChars 10 (Nat.toDigits 10 number) 0 = number := Nat.ofDigitChars_ten_toDigits
  simpa only [decimal, Nat.ofDigitChars_eq_foldl, Nat.mul_comm 10] using value

/-- The text of a number that is not negative consists of the digits that stand for it. -/
theorem Literal.toList_text {value : Int64} (h : 0 ≤ value.toInt) : ∃ number : Nat,
    (Literal.integer value).text.toList = Nat.toDigits 10 number ∧ number ≤ Int64.maxValue.toNatClampNeg ∧
      Int64.ofNat number = value := by
  refine ⟨value.toNatClampNeg, ?_, ?_, ?_⟩
  · rw [text, Int.repr_eq_if, if_pos h, Nat.toList_repr]
    rfl
  · exact Int64.toNatClampNeg_le value.le_maxValue
  · exact Int64.ofNat_toNatClampNeg value (by simpa [Int64.le_iff_toInt_le] using h)

theorem digitRun_toDigits {rest : List Char} (number : Nat) (apart : ∀ c, rest.head? = some c → c.isDigit = false) :
    DigitRun [] (Nat.toDigits 10 number) rest :=
  ⟨Nat.toDigits_ne_nil, fun _ => Nat.isDigit_of_mem_toDigits (by decide) (by decide), nofun, apart⟩

/-! ### Nesting of texts -/

/-- The text has as many opening parentheses as closing ones. -/
def Paired (text : List Char) : Prop :=
  text.countP (· = '(') = text.countP (· = ')')

theorem countP_toDigits (number : Nat) {c : Char} (other : c.isDigit = false) :
    (Nat.toDigits 10 number).countP (· = c) = 0 := by
  rw [List.countP_eq_zero]
  intro digit hd heq
  rw [decide_eq_true_iff] at heq
  rw [← heq, Nat.isDigit_of_mem_toDigits (by decide) (by decide) hd] at other
  cases other

section
variable {room : Nat} {text lefts rights : List Char} {symbol : Char} {kind : Kind}

theorem not_paren_of_isSome_power? (hs : Kind.ofSymbol? symbol = some kind) (hp : kind.power?.isSome) :
    symbol ≠ '(' ∧ symbol ≠ ')' := by
  obtain ⟨-, -, ho, hc⟩ := Kind.of_isSome_power? hp
  refine ⟨?_, ?_⟩ <;> rintro rfl <;> cases hs
  · exact ho rfl
  · exact hc rfl

theorem nests_group_iff (paired : Paired text) : Nests room ('(' :: text ++ [')']) ↔ 0 < room ∧ Nests (room - 1) text :=
  Nested.group_iff rfl rfl rfl paired

theorem Nests.of_parenthesized {needed : Bool} (paired : Paired text) (h : Nests room (parenthesized needed text)) :
    Nests room text := by
  cases needed with
  | false => exact h
  | true => exact Nested.mono ((nests_group_iff paired).mp h).2 (Nat.sub_le _ _)

theorem Nests.parenthesized (paired : Paired text) (hr : 0 < room) (h : Nests (room - 1) text) (needed : Bool) :
    Nests room (parenthesized needed text) := by
  cases needed with
  | false => exact Nested.mono h (Nat.sub_le _ _)
  | true => exact (nests_group_iff paired).mpr ⟨hr, h⟩

theorem nests_operation_iff (paired : Paired lefts) (hs : Kind.ofSymbol? symbol = some kind) (hp : kind.power?.isSome) :
    Nests room (lefts ++ ' ' :: symbol :: ' ' :: rights) ↔ Nests room lefts ∧ Nests room rights := by
  obtain ⟨ho, hc⟩ := not_paren_of_isSome_power? hs hp
  have sign : Nests room ([' ', symbol, ' '] ++ rights) ↔ Nests room [' ', symbol, ' '] ∧ Nests room rights :=
    Nested.append_iff (by simp [ho, hc])
  have apart : Nests room [' ', symbol, ' '] := Nested.of_countP_le (by simp [ho])
  exact (Nested.append_iff paired).trans (and_congr_right fun _ => sign.trans (and_iff_right apart))

end

/-! ### Reading what was written -/

namespace Cursor
variable {cursor : Cursor} {text rest : List Char} {kind : Kind} {literal : Literal} {size : Nat} {symbol : Char}

theorem next_of_first (here : trimStart cursor.rest = text) (h : Lexeme.first text = .token kind literal size rest) :
    ∃ token after, cursor.next = (.ok token, after) ∧ token.kind = kind ∧ token.literal = literal ∧
      after.rest = rest := by
  subst here
  have first : Lexeme.first cursor.skipBlanks.rest = .token kind literal size rest := h
  simp only [next, first]
  exact ⟨_, _, rfl, rfl, rfl, rfl⟩

theorem next_of_symbol (here : trimStart cursor.rest = symbol :: rest) (h : Kind.ofSymbol? symbol = some kind) :
    ∃ token after, cursor.next = (.ok token, after) ∧ token.kind = kind ∧ after.rest = rest := by
  have first : Lexeme.first (symbol :: rest) = _ := (Lexeme.View.symbol (Kind.ofSymbol?_eq_some_iff.mp h)).first_eq
  obtain ⟨token, after, hn, hk, -, hr⟩ := next_of_first here first
  exact ⟨token, after, hn, hk, hr⟩

end Cursor

/-- The text is read as tokens of the category, if no digit stands behind it. -/
structure Written (category : Category) (text : List Char) (shape : Shape) : Prop where
  /-- It does not begin with white space. -/
  start : ∀ more, trimStart (text ++ more) = text ++ more
  paired : Paired text
  reads : ∀ (cursor : Cursor) (more : List Char), trimStart cursor.rest = text ++ more →
    (∀ c, more.head? = some c → c.isDigit = false) → ∃ tokens after, cursor.Reads tokens after ∧
      after.rest = more ∧ Derives category tokens shape ∧ ∀ room, Nests room text → Shallow room tokens

namespace Written
variable {category category' : Category} {text lefts rights : List Char} {shape left right : Shape} {symbol : Char}
  {kind : Kind} {power : Power}

theorem loosen (h : Written category text shape) (le : category'.grip ≤ category.grip) :
    Written category' text shape := by
  refine ⟨h.start, h.paired, fun cursor more here apart => ?_⟩
  obtain ⟨tokens, after, hr, hm, hd, hs⟩ := h.reads cursor more here apart
  exact ⟨tokens, after, hr, hm, hd.loosen le, hs⟩

theorem literal {value : Int64} (h : 0 ≤ value.toInt) :
    Written .factor (Literal.integer value).text.toList (.literal value) := by
  obtain ⟨number, ht, low, rfl⟩ := Literal.toList_text h
  rw [ht]
  have value := decimal_toDigits number
  refine ⟨fun more => ?_, ?_, fun cursor more here apart => ?_⟩
  · obtain ⟨digit, digits, hd⟩ := List.exists_cons_of_ne_nil (Nat.toDigits_ne_nil (b := 10) (n := number))
    have first : digit ∈ Nat.toDigits 10 number := hd ▸ List.mem_cons_self
    rw [hd]
    exact trimStart_of_not_isBlank
      (not_isBlank_of_isDigit (Nat.isDigit_of_mem_toDigits (by decide) (by decide) first)) _
  · rw [Paired, countP_toDigits number rfl, countP_toDigits number rfl]
  · have first := Lexeme.first_of_digitRun (digitRun_toDigits number apart)
    rw [value, if_pos low] at first
    obtain ⟨token, after, hn, hk, hl, hr⟩ := Cursor.next_of_first here first
    exact ⟨[token], after, .cons hn .nil, hr, .integer hk hl, fun _ _ => Shallow.singleton (by rw [hk]; nofun)⟩

theorem group (h : Written .formula text shape) : Written .factor ('(' :: text ++ [')']) shape := by
  refine ⟨fun more => trimStart_of_not_isBlank (by decide) _, ?_, fun cursor more here apart => ?_⟩
  · have := h.paired
    simp only [Paired, List.cons_append, List.countP_cons, List.countP_append] at this ⊢
    simp [this]
  · rw [List.append_assoc, List.cons_append] at here
    obtain ⟨opening, inner, hn, ho, hi⟩ := Cursor.next_of_symbol here rfl
    obtain ⟨tokens, between, hr, hb, hd, hs⟩ := h.reads inner (')' :: more) (hi ▸ h.start _) (by rintro c ⟨⟩; rfl)
    have here : trimStart between.rest = ')' :: more := hb.symm ▸ trimStart_of_not_isBlank (by decide) more
    obtain ⟨closing, after, hn', hc, ha⟩ := Cursor.next_of_symbol here rfl
    refine ⟨opening :: tokens ++ [closing], after, (Cursor.Reads.cons hn hr).concat hn', ha, .group ho hd hc, ?_⟩
    intro room nests
    obtain ⟨hroom, nests⟩ := (nests_group_iff h.paired).mp nests
    exact (Shallow.group_iff ho hc hd.even).mpr ⟨hroom, hs _ nests⟩

theorem operation (hl : Written power.category lefts left) (hr : Written power.operand rights right)
    (hs : Kind.ofSymbol? symbol = some kind) (hp : kind.power? = some power) :
    Written power.category (lefts ++ ' ' :: symbol :: ' ' :: rights) (.operation left kind right) := by
  have isSome : kind.power?.isSome := Option.isSome_of_eq_some hp
  obtain ⟨ho, hc⟩ := not_paren_of_isSome_power? hs isSome
  refine ⟨fun more => ?_, ?_, fun cursor more here apart => ?_⟩
  · rw [List.append_assoc]
    exact hl.start _
  · have pairedl := hl.paired
    have pairedr := hr.paired
    simp only [Paired] at pairedl pairedr ⊢
    simp [pairedl, pairedr, ho, hc]
  · rw [List.append_assoc] at here
    -- A blank stands behind the left operand and one behind the symbol, so no number goes on there.
    obtain ⟨tokens, between, hrl, hb, hdl, hsl⟩ := hl.reads cursor _ here (by rintro c ⟨⟩; rfl)
    have here : trimStart between.rest = symbol :: ' ' :: (rights ++ more) := by
      rw [hb, List.cons_append, trimStart_of_isBlank (by decide)]
      exact trimStart_of_not_isBlank (not_isBlank_of_symbol (Kind.ofSymbol?_eq_some_iff.mp hs)) _
    obtain ⟨operator, between', hn, hk, hb'⟩ := Cursor.next_of_symbol here hs
    have here : trimStart between'.rest = rights ++ more := by rw [hb', trimStart_of_isBlank (by decide), hr.start]
    obtain ⟨tokens', after, hrr, ha, hdr, hsr⟩ := hr.reads between' more here apart
    subst hk
    refine ⟨tokens ++ operator :: tokens', after, hrl.append (.cons hn hrr), ha, hdl.operation hp hdr, ?_⟩
    intro room nests
    obtain ⟨nestsl, nestsr⟩ := (nests_operation_iff hl.paired hs isSome).mp nests
    obtain ⟨-, -, ho, hc⟩ := Kind.of_isSome_power? isSome
    exact (Shallow.append_iff hdl.even).mpr ⟨hsl room nestsl, (Shallow.cons_iff ho hc).mpr (hsr room nestsr)⟩

theorem printAs {tree : Tree} (h : Written tree.category tree.print shape) (category : Category) :
    Written category (tree.printAs category) shape := by
  unfold Tree.printAs parenthesized
  split
  · exact (h.loosen (Nat.zero_le _)).group.loosen (by cases category <;> decide)
  · next tight => exact h.loosen (Nat.le_of_not_lt (by simpa using tight))

end Written

namespace Tree.Regular
variable {tree : Tree}

theorem written_print (h : tree.Regular) : Written tree.category tree.print tree.shape := by
  induction h with
  | literal low => exact .literal low
  | operation isSome hs _ _ ihl ihr =>
    obtain ⟨power, hp⟩ := Option.isSome_iff_exists.mp isSome
    rw [category_operation hp, print_operation hp]
    exact .operation (ihl.printAs _) (ihr.printAs _) hs hp

/-- What is written of a tree is parsed to a tree of the same shape. -/
theorem parse_print (h : tree.Regular) (low : tree.height ≤ maxHeight) (nests : Nests maxDepth tree.print)
    (label : String) : ∃ tree', parse tree.print label .strict = .ok tree' ∧ tree'.shape = tree.shape := by
  have written : Written .formula tree.print tree.shape := h.written_print.printAs .formula
  have here : trimStart (Cursor.ofText tree.print label).rest = tree.print ++ [] := by
    rw [← written.start [], List.append_nil]
    rfl
  obtain ⟨tokens, between, hr, hb, hd, hs⟩ := written.reads _ [] here nofun
  obtain ⟨stop, after, hn, hk⟩ : ∃ stop after, between.next = (.ok stop, after) ∧ stop.kind = .endOfText := by
    have nothing : between.skipBlanks.rest = [] := by
      rw [show between.skipBlanks.rest = trimStart between.rest from rfl, hb]
      rfl
    simp only [Cursor.next, nothing, Lexeme.first]
    exact ⟨_, _, rfl, rfl⟩
  have ends := Kind.power?_of_endOfText hk
  exact parse_of_derives (hr.concat hn) hd ends (hs _ nests) (h.levels_eq ▸ low) fun _ => hk

end Tree.Regular

end Polish
