import Mathlib
import Polish.Proofs.Printing

/-! Reading renderings back. An operation is rendered between parentheses and a number is not, so the first
    character tells them apart, and what an operator is written as always stands in the same place. A rendering
    therefore says which tree it comes from, whatever characters the operators are. -/

namespace Polish

/-- What a rendering says of a tree: its numbers, what its operators are written as and how they hold together. -/
inductive Outline
  | literal (value : Int64)
  | operation (operator : Literal) (left right : Outline)
  deriving DecidableEq

namespace Tree

/-- What the rendering of a tree says of it. -/
def outline : Tree → Outline
  | literal value _ => .literal value
  | operation left operator right _ _ => .operation operator.literal left.outline right.outline

/-- Every operator of the tree is written as one character, which may be any. -/
inductive Signed : Tree → Prop
  | literal (value : Int64) (span : Span) : Signed (.literal value span)
  | operation {left right : Tree} {operator : Token} {symbol : Char} {height : Nat} {span : Span} :
      operator.literal = .symbol symbol → Signed left → Signed right →
      Signed (.operation left operator right height span)

/-- Every operation of the tree has the height that its operands give it. -/
inductive Measured : Tree → Prop
  | literal (value : Int64) (span : Span) : Measured (.literal value span)
  | operation {left right : Tree} {operator : Token} {span : Span} : Measured left → Measured right →
      Measured (.operation left operator right (max left.height right.height + 1) span)

/-- The trees differ in nothing but places and the kinds of their operators. -/
inductive Resembles : Tree → Tree → Prop
  | literal (value : Int64) (span span' : Span) : Resembles (.literal value span) (.literal value span')
  | operation {left left' right right' : Tree} {operator operator' : Token} {height : Nat} {span span' : Span} :
      Resembles left left' → operator.literal = operator'.literal → Resembles right right' →
      Resembles (.operation left operator right height span) (.operation left' operator' right' height span')

end Tree

theorem Tree.Resembles.height_eq {tree other : Tree} (h : tree.Resembles other) : tree.height = other.height := by
  cases h <;> rfl

/-! ### The reader -/

namespace Outline

/-- Reads the digits of a number with this sign, and gives what is left of the text. -/
def readDigits (sign : Int) (text : List Char) : Option (Outline × List Char) :=
  match text.takeWhile Char.isDigit with
  | [] => none
  | digits => some (.literal (Int64.ofInt (sign * decimal digits)), text.dropWhile Char.isDigit)

/-- Reads a number, which may be negative, and gives what is left of the text. -/
def readInteger : List Char → Option (Outline × List Char)
  | '-' :: text => readDigits (-1) text
  | text => readDigits 1 text

/-- Reads a rendering of fewer than `room` levels, and gives what is left of the text. -/
def readWithin : Nat → List Char → Option (Outline × List Char)
  | 0, _ => none
  | room + 1, '(' :: symbol :: ' ' :: text =>
    match readWithin room text with
    | some (left, ' ' :: text) =>
      match readWithin room text with
      | some (right, ')' :: text) => some (.operation (.symbol symbol) left right, text)
      | _ => none
    | _ => none
  | _ + 1, text => readInteger text

/-- Reads a rendering. A text has more characters than a rendering in it has levels. -/
def read? (text : String) : Option Outline :=
  match readWithin text.toList.length text.toList with
  | some (outline, []) => some outline
  | _ => none

end Outline

/-! ### Numbers -/

/-- The text of a number is its digits, behind a minus sign if it is negative. -/
theorem Literal.toList_text_cases (value : Int64) : ∃ number : Nat,
    (Literal.integer value).text.toList = Nat.toDigits 10 number ∧ Int64.ofInt number = value ∨
      (Literal.integer value).text.toList = '-' :: Nat.toDigits 10 number ∧ Int64.ofInt (-number) = value := by
  by_cases h : 0 ≤ value.toInt
  · refine ⟨value.toInt.toNat, Or.inl ⟨?_, ?_⟩⟩
    · rw [text, Int.repr_eq_if, if_pos h, Nat.toList_repr]
    · rw [Int.toNat_of_nonneg h, Int64.ofInt_toInt]
  · refine ⟨(-value.toInt).toNat, Or.inr ⟨?_, ?_⟩⟩
    · rw [text, Int.repr_eq_if, if_neg h, String.toList_append, Nat.toList_repr]
      rfl
    · rw [Int.toNat_of_nonneg (by omega), Int.neg_neg, Int64.ofInt_toInt]

/-- The text of a number does not begin as an operation does. -/
theorem Literal.exists_cons_text (value : Int64) :
    ∃ c more, (Literal.integer value).text.toList = c :: more ∧ c ≠ '(' := by
  obtain ⟨number, ⟨text, -⟩ | ⟨text, -⟩⟩ := toList_text_cases value
  · obtain ⟨digit, digits, hd⟩ := List.exists_cons_of_ne_nil (Nat.toDigits_ne_nil (b := 10) (n := number))
    have first : digit.isDigit = true := Nat.isDigit_of_mem_toDigits (by decide) (by decide) (hd ▸ List.mem_cons_self)
    refine ⟨digit, digits, text.trans hd, ?_⟩
    rintro rfl
    cases first
  · exact ⟨'-', _, text, by decide⟩

namespace Outline
variable {rest digits : List Char}

theorem readDigits_append (sign : Int) (run : DigitRun [] digits rest) :
    readDigits sign (digits ++ rest) = some (.literal (Int64.ofInt (sign * decimal digits)), rest) := by
  rw [readDigits, run.takeWhile_eq, run.dropWhile_eq]
  obtain ⟨digit, digits, rfl⟩ := List.exists_cons_of_ne_nil run.ne_nil
  rfl

theorem readInteger_of_isDigit {c : Char} {text : List Char} (digit : c.isDigit = true) :
    readInteger (c :: text) = readDigits 1 (c :: text) := by
  unfold readInteger
  split
  · next heq =>
    cases heq
    cases digit
  · rfl

theorem readInteger_text (value : Int64) (apart : ∀ c, rest.head? = some c → c.isDigit = false) :
    readInteger ((Literal.integer value).text.toList ++ rest) = some (.literal value, rest) := by
  obtain ⟨number, ⟨text, rfl⟩ | ⟨text, rfl⟩⟩ := Literal.toList_text_cases value
  · have run := digitRun_toDigits number apart
    obtain ⟨digit, digits, hd⟩ := List.exists_cons_of_ne_nil run.ne_nil
    have first : digit.isDigit = true := run.digits digit (hd ▸ List.mem_cons_self)
    have read := readDigits_append 1 run
    rw [decimal_toDigits, Int.one_mul] at read
    rw [text, ← read, hd]
    exact readInteger_of_isDigit first
  · have read := readDigits_append (-1) (digitRun_toDigits number apart)
    rw [decimal_toDigits, Int.neg_one_mul] at read
    rw [text]
    exact read

end Outline

/-! ### Renderings -/

namespace Tree
variable {left right tree other : Tree} {operator : Token} {height : Nat} {span : Span} {symbol : Char}
  {rest : List Char} {room : Nat}

theorem toList_render_operation (hs : operator.literal = .symbol symbol) :
    (operation left operator right height span).render.toList =
      '(' :: symbol :: ' ' :: (left.render.toList ++ ' ' :: (right.render.toList ++ [')'])) := by
  simp [render, hs, Literal.text]

theorem levels_lt_length_render (tree : Tree) : tree.shape.levels < tree.render.toList.length := by
  induction tree with
  | literal value span =>
    obtain ⟨c, more, text, -⟩ := Literal.exists_cons_text value
    exact List.length_pos_of_ne_nil (text ▸ List.cons_ne_nil c more)
  | operation left operator right height span ihl ihr =>
    simp only [shape, Shape.levels, render, String.toList_append, List.length_append]
    have marks : 0 < "(".toList.length := by decide
    omega

/-- Where the tree is a number, the rest of the text does not go on with a digit. -/
def Ends : Tree → List Char → Prop
  | literal _ _, rest => ∀ c, rest.head? = some c → c.isDigit = false
  | operation _ _ _ _ _, _ => True

theorem ends_nil (tree : Tree) : tree.Ends [] := by
  cases tree with
  | literal => exact nofun
  | operation => trivial

theorem ends_cons (tree : Tree) {c : Char} (other : c.isDigit = false) (rest : List Char) : tree.Ends (c :: rest) := by
  cases tree with
  | literal =>
    rintro _ ⟨⟩
    exact other
  | operation => trivial

theorem readWithin_literal (value : Int64) (span : Span) (ends : (literal value span).Ends rest) :
    Outline.readWithin (room + 1) ((literal value span).render.toList ++ rest) = some (.literal value, rest) := by
  obtain ⟨c, more, text, other⟩ := Literal.exists_cons_text value
  have read := Outline.readInteger_text value ends
  rw [text, List.cons_append] at read
  rw [render, text, List.cons_append, ← read, Outline.readWithin]
  intro _ _ heq
  exact other (List.cons.inj heq).1

theorem Signed.readWithin_render (h : tree.Signed) (low : tree.shape.levels < room) (ends : tree.Ends rest) :
    Outline.readWithin room (tree.render.toList ++ rest) = some (tree.outline, rest) := by
  induction h generalizing room rest with
  | literal value span =>
    obtain ⟨room, rfl⟩ : ∃ inner, room = inner + 1 := ⟨room - 1, by omega⟩
    exact readWithin_literal value span ends
  | @operation left right operator symbol height span hs _ _ ihl ihr =>
    simp only [shape, Shape.levels] at low
    obtain ⟨room, rfl⟩ : ∃ inner, room = inner + 1 := ⟨room - 1, by omega⟩
    have rights : Outline.readWithin room (right.render.toList ++ ')' :: rest) = some (right.outline, ')' :: rest) :=
      ihr (by omega) (right.ends_cons (by decide) _)
    have lefts : Outline.readWithin room (left.render.toList ++ ' ' :: (right.render.toList ++ ')' :: rest)) =
        some (left.outline, ' ' :: (right.render.toList ++ ')' :: rest)) :=
      ihl (by omega) (left.ends_cons (by decide) _)
    rw [toList_render_operation hs]
    simp only [List.cons_append, List.append_assoc, List.nil_append, Outline.readWithin]
    simp only [lefts, rights, outline, hs]

theorem Signed.read?_render (h : tree.Signed) : Outline.read? tree.render = some tree.outline := by
  have read := h.readWithin_render tree.levels_lt_length_render tree.ends_nil
  rw [List.append_nil] at read
  rw [Outline.read?, read]

/-- The rendering of an operation shows where it ends, so it is no longer than another one that begins it. -/
theorem Signed.render_eq_of_isPrefix (h : tree.Signed) (h' : (Tree.operation left operator right height span).Signed)
    (part : tree.render.toList <+: (Tree.operation left operator right height span).render.toList) :
    tree.render = (Tree.operation left operator right height span).render := by
  obtain ⟨more, whole⟩ := part
  cases tree with
  | literal value =>
    -- One of the two begins with a parenthesis and the other does not.
    obtain ⟨c, digits, text, differs⟩ := Literal.exists_cons_text value
    cases h' with
    | operation hs =>
      rw [toList_render_operation hs, render, text] at whole
      exact absurd (List.cons.inj whole).1 differs
  | operation left' operator' right' height' span' =>
    have shorter := (Tree.operation left' operator' right' height' span').levels_lt_length_render
    have levels := (Tree.operation left operator right height span).levels_lt_length_render
    have read := h'.readWithin_render levels (ends_nil _)
    rw [List.append_nil, ← whole, h.readWithin_render (by rw [List.length_append]; omega) trivial] at read
    obtain ⟨-, nothing⟩ := Prod.mk.inj (Option.some.inj read)
    rw [nothing, List.append_nil] at whole
    exact String.toList_injective whole

theorem Measured.resembles (h : tree.Measured) (h' : other.Measured) (same : tree.outline = other.outline) :
    tree.Resembles other := by
  induction h generalizing other with
  | literal value span =>
    cases h' with
    | literal value' span' =>
      cases same
      exact .literal value span span'
    | operation => cases same
  | operation hl hr ihl ihr =>
    cases h' with
    | literal => cases same
    | operation hl' hr' =>
      obtain ⟨operators, lefts, rights⟩ := Outline.operation.inj same
      have resemblel := ihl hl' lefts
      have resembler := ihr hr' rights
      rw [resemblel.height_eq, resembler.height_eq]
      exact .operation resemblel operators resembler

end Tree

/-- A rendering says which tree it is of. It is read back to the numbers of the tree, what its operators are written
    as and how they hold together; two trees with one rendering differ only in places and in the kinds of operators;
    and no rendering is the beginning of that of an operation. -/
theorem rendering_is_readable :
    (∀ tree : Tree, tree.Signed → Outline.read? tree.render = some tree.outline) ∧
    (∀ tree other : Tree, tree.Signed → other.Signed → tree.render = other.render →
      tree.outline = other.outline ∧ (tree.Measured → other.Measured → tree.Resembles other)) ∧
    ∀ (tree left : Tree) (operator : Token) (right : Tree) (height : Nat) (span : Span), tree.Signed →
      (Tree.operation left operator right height span).Signed →
      tree.render.toList <+: (Tree.operation left operator right height span).render.toList →
      tree.render = (Tree.operation left operator right height span).render := by
  refine ⟨fun tree h => h.read?_render, fun tree other h h' same => ?_,
    fun _ _ _ _ _ _ h h' => h.render_eq_of_isPrefix h'⟩
  have outlines : tree.outline = other.outline := by
    have read := h.read?_render
    rw [same, h'.read?_render] at read
    exact (Option.some.inj read).symm
  exact ⟨outlines, fun measured measured' => measured.resembles measured' outlines⟩

/-- The operators are written as a parenthesis and a digit, beside a negative number, and their kinds are lost. -/
theorem rendering_is_readable_of_odd_operators : ∃ tree other : Tree, tree ≠ other ∧ tree.Resembles other ∧
    tree.render = "(( -7 (5 1 23))" ∧
    Outline.read? "(( -7 (5 1 23))" =
      some (.operation (.symbol '(') (.literal (-7)) (.operation (.symbol '5') (.literal 1) (.literal 23))) := by
  let place : Span := ⟨.null, .null⟩
  let tree (kind : Kind) : Tree :=
    .operation (.literal (-7) place) ⟨kind, .symbol '(', place⟩
      (.operation (.literal 1 place) ⟨kind, .symbol '5', place⟩ (.literal 23 place) 1 place) 2 place
  have signed (kind : Kind) : (tree kind).Signed :=
    .operation rfl (.literal _ _) (.operation rfl (.literal _ _) (.literal _ _))
  have measured (kind : Kind) : (tree kind).Measured :=
    .operation (.literal _ _) (.operation (.literal _ _) (.literal _ _))
  have rendered (kind : Kind) : (tree kind).render = "(( -7 (5 1 23))" := rfl
  obtain ⟨read, readable, -⟩ := rendering_is_readable
  have resembles := (readable _ _ (signed .plus) (signed .minus) ((rendered _).trans (rendered _).symm)).2
  exact ⟨tree .plus, tree .minus, by decide, resembles (measured _) (measured _), rendered _,
    rendered .plus ▸ read _ (signed .plus)⟩

end Polish
