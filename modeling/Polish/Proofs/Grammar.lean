import Polish.Tree

/-! The grammar of formulas, apart from any way of reading them.

      formula := term | formula ("+" | "-") term
      term    := factor | term ("*" | "/") factor
      factor  := integer | "(" formula ")"

    A derivation gives the shape of a tree. The recursion on the left is what makes operators of one power
    group to the left. -/

namespace Polish

/-! ### Shapes -/

/-- What a tree says, without the places of its parts. -/
inductive Shape
  | literal (value : Int64)
  | operation (left : Shape) (operator : Kind) (right : Shape)
  deriving DecidableEq

/-- The most operators that are one above another. -/
def Shape.levels : Shape → Nat
  | literal _ => 0
  | operation left _ right => max left.levels right.levels + 1

namespace Tree

/-- The shape of a tree. -/
def shape : Tree → Shape
  | literal value _ => .literal value
  | operation left operator right _ _ => .operation left.shape operator.kind right.shape

/-- The literals and operators of a tree, from left to right. -/
def words : Tree → List Token
  | literal value span => [⟨.integer, .integer value, span⟩]
  | operation left operator right _ _ => left.words ++ operator :: right.words

/-- Every operation of the tree has the height and the span that its operands give it. -/
inductive Formed : Tree → Prop
  | literal (value : Int64) (span : Span) : Formed (.literal value span)
  | combine {left right : Tree} {operator : Token} : Formed left → Formed right →
      Formed (left.combine operator right)

theorem Formed.height_eq {tree : Tree} (h : tree.Formed) : tree.height = tree.shape.levels := by
  induction h with
  | literal => rfl
  | combine _ _ ihl ihr => rw [height_combine, ihl, ihr]; rfl

theorem Formed.stop_mem {tree : Tree} (h : tree.Formed) : ∃ token ∈ tree.words, token.span.stop = tree.span.stop := by
  induction h with
  | literal value span => exact ⟨_, List.mem_singleton_self _, rfl⟩
  | combine _ _ _ ihr =>
    obtain ⟨token, ht, hs⟩ := ihr
    exact ⟨token, List.mem_append_right _ (List.mem_cons_of_mem _ ht), hs⟩

end Tree

/-! ### Derivations -/

theorem Kind.power?_eq_additive_iff {kind : Kind} : kind.power? = some .additive ↔ kind = .plus ∨ kind = .minus := by
  cases kind <;> decide

theorem Kind.power?_eq_multiplicative_iff {kind : Kind} :
    kind.power? = some .multiplicative ↔ kind = .times ∨ kind = .divide := by
  cases kind <;> decide

theorem Kind.power?_of_endOfText {kind : Kind} (h : kind = .endOfText) : kind.power? = none := by
  rw [h]
  rfl

theorem Kind.of_isSome_power? {kind : Kind} (h : kind.power?.isSome) :
    kind ≠ .endOfText ∧ kind ≠ .integer ∧ kind ≠ .openParen ∧ kind ≠ .closeParen := by
  refine ⟨?_, ?_, ?_, ?_⟩ <;> rintro rfl <;> cases h

/-- What the rules are for. -/
inductive Category
  | formula
  | term
  | factor

/-- Tokens that are a formula, a term or a factor, and the shape that they have. -/
inductive Derives : Category → List Token → Shape → Prop
  | integer {token : Token} {value : Int64} : token.kind = .integer → token.literal = .integer value →
      Derives .factor [token] (.literal value)
  | group {opening closing : Token} {tokens : List Token} {shape : Shape} : opening.kind = .openParen →
      Derives .formula tokens shape → closing.kind = .closeParen →
      Derives .factor (opening :: tokens ++ [closing]) shape
  | factor {tokens : List Token} {shape : Shape} : Derives .factor tokens shape → Derives .term tokens shape
  | product {lefts rights : List Token} {left right : Shape} {operator : Token} : Derives .term lefts left →
      operator.kind = .times ∨ operator.kind = .divide → Derives .factor rights right →
      Derives .term (lefts ++ operator :: rights) (.operation left operator.kind right)
  | term {tokens : List Token} {shape : Shape} : Derives .term tokens shape → Derives .formula tokens shape
  | sum {lefts rights : List Token} {left right : Shape} {operator : Token} : Derives .formula lefts left →
      operator.kind = .plus ∨ operator.kind = .minus → Derives .term rights right →
      Derives .formula (lefts ++ operator :: rights) (.operation left operator.kind right)

/-- The category that operators of a power build. -/
def Power.category : Power → Category
  | .additive => .formula
  | .multiplicative => .term

/-- The category of what stands to the right of an operator. -/
def Power.operand : Power → Category
  | .additive => .term
  | .multiplicative => .factor

namespace Derives
variable {tokens lefts rights : List Token} {shape left right : Shape} {operator : Token} {power : Power}

theorem of_operand (h : Derives power.operand tokens shape) : Derives power.category tokens shape := by
  cases power
  · exact .term h
  · exact .factor h

theorem operation (hl : Derives power.category lefts left) (hp : operator.kind.power? = some power)
    (hr : Derives power.operand rights right) :
    Derives power.category (lefts ++ operator :: rights) (.operation left operator.kind right) := by
  cases power
  · exact .sum hl (Kind.power?_eq_additive_iff.mp hp) hr
  · exact .product hl (Kind.power?_eq_multiplicative_iff.mp hp) hr

/-- A formula goes on behind an operator of either power; one that holds tightly joins its last term. -/
theorem extend (hl : Derives .formula lefts left) (hp : operator.kind.power?.isSome)
    (hr : Derives .factor rights right) : ∃ shape, Derives .formula (lefts ++ operator :: rights) shape := by
  obtain ⟨power, hp⟩ := Option.isSome_iff_exists.mp hp
  cases power with
  | additive => exact ⟨_, .sum hl (Kind.power?_eq_additive_iff.mp hp) (.factor hr)⟩
  | multiplicative =>
    have tight := Kind.power?_eq_multiplicative_iff.mp hp
    cases hl with
    | term hl => exact ⟨_, .term (.product hl tight hr)⟩
    | sum hl hp' hl' =>
      rw [List.append_assoc, List.cons_append]
      exact ⟨_, .sum hl hp' (.product hl' tight hr)⟩

theorem ends_in_factor {category : Category} (h : Derives category tokens shape) :
    ∃ front back last, tokens = front ++ back ∧ Derives .factor back last := by
  induction h with
  | integer hk hl => exact ⟨[], _, _, rfl, .integer hk hl⟩
  | group ho h hc => exact ⟨[], _, _, rfl, .group ho h hc⟩
  | factor _ ih | term _ ih => exact ih
  | @product lefts _ _ _ operator _ _ _ _ ih | @sum lefts _ _ _ operator _ _ _ _ ih =>
    obtain ⟨front, back, last, rfl, hb⟩ := ih
    exact ⟨lefts ++ operator :: front, back, last, by simp, hb⟩

end Derives

/-! ### Nesting -/

/-- From the left on, there are never more than `room` openings without their closings. -/
def Nested {α : Type} (opening closing : α → Bool) (room : Nat) (items : List α) : Prop :=
  ∀ front, front <+: items → front.countP opening ≤ front.countP closing + room

theorem isPrefix_append_iff {α : Type} {front ts us : List α} :
    front <+: ts ++ us ↔ front <+: ts ∨ ∃ more, front = ts ++ more ∧ more <+: us := by
  constructor
  · intro h
    rcases List.prefix_or_prefix_of_prefix h (List.prefix_append ts us) with h' | ⟨more, rfl⟩
    · exact Or.inl h'
    · exact Or.inr ⟨more, rfl, (List.prefix_append_right_inj ts).mp h⟩
  · intro h
    rcases h with h | ⟨more, rfl, h⟩
    · exact h.trans (List.prefix_append ts us)
    · exact (List.prefix_append_right_inj ts).mpr h

namespace Nested
variable {α β : Type} {opening closing : α → Bool} {opening' closing' : β → Bool} {room room' : Nat} {first last : α}
  {ts us : List α} {first' : β} {ts' : List β}

theorem of_countP_le (h : ts.countP opening ≤ room) : Nested opening closing room ts := fun _ hf =>
  Nat.le_trans (Nat.le_trans hf.sublist.countP_le h) (Nat.le_add_left _ _)

theorem mono (h : Nested opening closing room ts) (le : room ≤ room') : Nested opening closing room' ts :=
  fun front hf => Nat.le_trans (h front hf) (Nat.add_le_add_left le _)

theorem append_iff (even : ts.countP opening = ts.countP closing) :
    Nested opening closing room (ts ++ us) ↔ Nested opening closing room ts ∧ Nested opening closing room us := by
  -- What is opened in the first part is closed there, so the second one has the same room as before.
  constructor
  · intro h
    refine ⟨fun front hf => h front (isPrefix_append_iff.mpr (Or.inl hf)), fun front hf => ?_⟩
    have := h (ts ++ front) (isPrefix_append_iff.mpr (Or.inr ⟨front, rfl, hf⟩))
    rw [List.countP_append, List.countP_append] at this
    omega
  · intro h front hf
    obtain ⟨h1, h2⟩ := h
    rcases isPrefix_append_iff.mp hf with hf | ⟨more, rfl, hm⟩
    · exact h1 front hf
    · have := h2 more hm
      rw [List.countP_append, List.countP_append]
      omega

/-- The first item takes room from those behind it, or gives them some. -/
theorem cons_iff : Nested opening closing room (first :: ts) ↔
    (opening first).toNat ≤ room + (closing first).toNat ∧
      Nested opening closing (room + (closing first).toNat - (opening first).toNat) ts := by
  have count (p : α → Bool) (front : List α) : (first :: front).countP p = front.countP p + (p first).toNat := by
    rw [List.countP_cons]
    cases p first <;> rfl
  constructor
  · intro h
    have enough (front : List α) (hf : front <+: ts) := h (first :: front) (List.cons_prefix_cons.mpr ⟨rfl, hf⟩)
    simp only [count] at enough
    refine ⟨?_, fun front hf => ?_⟩
    · have := enough [] List.nil_prefix
      simp only [List.countP_nil] at this
      omega
    · have := enough front hf
      omega
  · intro h front hf
    obtain ⟨low, h⟩ := h
    rcases List.prefix_cons_iff.mp hf with rfl | ⟨inner, rfl, hi⟩
    · exact Nat.zero_le _
    · have := h inner hi
      rw [count, count]
      omega

theorem cons_congr (ho : opening first = opening' first') (hc : closing first = closing' first')
    (h : ∀ room, Nested opening closing room ts ↔ Nested opening' closing' room ts') (room : Nat) :
    Nested opening closing room (first :: ts) ↔ Nested opening' closing' room (first' :: ts') := by
  rw [cons_iff, cons_iff, ho, hc, h]

theorem append_of_neither (h : ∀ item ∈ ts, opening item = false ∧ closing item = false) :
    Nested opening closing room (ts ++ us) ↔ Nested opening closing room us := by
  induction ts with
  | nil => rfl
  | cons item ts ih =>
    obtain ⟨⟨ho, hc⟩, others⟩ := List.forall_mem_cons.mp h
    rw [List.cons_append, cons_iff, ho, hc]
    exact (and_iff_right (Nat.zero_le _)).trans (ih others)

/-- A group needs room for its own opening around what it holds. -/
theorem group_iff (ho : opening first = true) (ho' : closing first = false) (hc : opening last = false)
    (even : ts.countP opening = ts.countP closing) :
    Nested opening closing room (first :: ts ++ [last]) ↔ 0 < room ∧ Nested opening closing (room - 1) ts := by
  have alone : Nested opening closing (room - 1) [last] := of_countP_le (by simp [hc])
  rw [List.cons_append, cons_iff, append_iff even, ho, ho']
  exact and_congr_right fun _ => and_iff_left alone

end Nested

/-! ### Parentheses -/

/-- The tokens without the parentheses among them. -/
def ungrouped (tokens : List Token) : List Token :=
  tokens.filter fun token => token.kind ≠ .openParen ∧ token.kind ≠ .closeParen

@[simp] theorem ungrouped_append (ts us : List Token) : ungrouped (ts ++ us) = ungrouped ts ++ ungrouped us :=
  List.filter_append ts us

theorem ungrouped_cons_of_ne {token : Token} (h1 : token.kind ≠ .openParen) (h2 : token.kind ≠ .closeParen)
    (ts : List Token) : ungrouped (token :: ts) = token :: ungrouped ts := by
  simp [ungrouped, h1, h2]

theorem ungrouped_group {opening closing : Token} (ho : opening.kind = .openParen) (hc : closing.kind = .closeParen)
    (ts : List Token) : ungrouped (opening :: ts ++ [closing]) = ungrouped ts := by
  simp [ungrouped, ho, hc]

/-- The number of parentheses that open a group. -/
def opens (tokens : List Token) : Nat :=
  tokens.countP (·.kind = .openParen)

/-- The number of parentheses that close a group. -/
def closes (tokens : List Token) : Nat :=
  tokens.countP (·.kind = .closeParen)

@[simp] theorem opens_nil : opens [] = 0 := rfl

@[simp] theorem closes_nil : closes [] = 0 := rfl

@[simp] theorem opens_append (ts us : List Token) : opens (ts ++ us) = opens ts + opens us :=
  List.countP_append

@[simp] theorem closes_append (ts us : List Token) : closes (ts ++ us) = closes ts + closes us :=
  List.countP_append

@[simp] theorem opens_cons (token : Token) (ts : List Token) :
    opens (token :: ts) = opens ts + if token.kind = .openParen then 1 else 0 := by
  simp [opens, List.countP_cons]

@[simp] theorem closes_cons (token : Token) (ts : List Token) :
    closes (token :: ts) = closes ts + if token.kind = .closeParen then 1 else 0 := by
  simp [closes, List.countP_cons]

/-- No more than `room` parentheses are open at once. -/
def Shallow (room : Nat) (tokens : List Token) : Prop :=
  ∀ front, front <+: tokens → opens front ≤ closes front + room

namespace Shallow
variable {room : Nat} {tokens ts us : List Token} {token opening closing : Token}

theorem append_iff (even : opens ts = closes ts) : Shallow room (ts ++ us) ↔ Shallow room ts ∧ Shallow room us :=
  Nested.append_iff even

theorem singleton (h : token.kind ≠ .openParen) : Shallow room [token] :=
  Nested.of_countP_le (by simp [h])

theorem cons_iff (h1 : token.kind ≠ .openParen) (h2 : token.kind ≠ .closeParen) :
    Shallow room (token :: ts) ↔ Shallow room ts := by
  have even : opens [token] = closes [token] := by simp [h1, h2]
  rw [← List.singleton_append, append_iff even]
  exact and_iff_right (singleton h1)

theorem group_iff (ho : opening.kind = .openParen) (hc : closing.kind = .closeParen) (even : opens ts = closes ts) :
    Shallow room (opening :: ts ++ [closing]) ↔ 0 < room ∧ Shallow (room - 1) ts :=
  Nested.group_iff (by simp [ho]) (by simp [ho]) (by simp [hc]) even

end Shallow

end Polish
