import Mathlib
import Polish.Proofs.Acceptance
import Polish.Proofs.Readable
import Polish.Proofs.Reprinting

/-! What a rendering keeps of its text. Every operator is in it once, between parentheses of its own, and the numbers
    are in it in their order, each without leading zeros. The parentheses of the text are not. -/

namespace Polish

/-! ### Digits -/

/-- The longest runs of digits in a text, from left to right. -/
def digitRuns (text : List Char) : List (List Char) :=
  (text.splitOnP fun c => !c.isDigit).filter (· ≠ [])

section
variable {before after digits : List Char} {c : Char}

theorem digitRuns_append_cons (other : c.isDigit = false) :
    digitRuns (before ++ c :: after) = digitRuns before ++ digitRuns after := by
  rw [digitRuns, List.splitOnP_append_cons _ _ (by simp [other]), List.filter_append]
  rfl

theorem digitRuns_cons (other : c.isDigit = false) : digitRuns (c :: after) = digitRuns after := by
  have split : digitRuns ([] ++ c :: after) = digitRuns [] ++ digitRuns after := digitRuns_append_cons other
  exact split

theorem digitRuns_of_isDigit (hne : digits ≠ []) (h : ∀ c ∈ digits, c.isDigit = true) :
    digitRuns digits = [digits] := by
  rw [digitRuns, List.splitOnP_eq_singleton fun c hc => by simp [h c hc]]
  simp [hne]

end

/-- The values of the integers among the tokens. -/
def numbers (tokens : List Token) : List Int64 :=
  tokens.filterMap fun
    | ⟨.integer, .integer value, _⟩ => some value
    | _ => none

theorem numbers_append (ts us : List Token) : numbers (ts ++ us) = numbers ts ++ numbers us :=
  List.filterMap_append

theorem numbers_symbol (kind : Kind) (symbol : Char) (place : Span) (ts : List Token) :
    numbers (⟨kind, .symbol symbol, place⟩ :: ts) = numbers ts := by
  cases kind <;> rfl

/-- How many operators there are among the tokens. -/
def operators (tokens : List Token) : Nat :=
  tokens.countP (·.kind.power?.isSome)

theorem operators_operation {operator : Token} (h : operator.kind.power?.isSome) (lefts rights : List Token) :
    operators (lefts ++ operator :: rights) = operators lefts + operators rights + 1 := by
  simp [operators, List.countP_cons_of_pos, h, Nat.add_assoc]

/-- The characters that operators are written as. -/
def signs : List (Char × Kind) :=
  [('+', .plus), ('-', .minus), ('*', .times), ('/', .divide)]

/-! ### What is kept -/

/-- The text has one pair of parentheses for each operator among the tokens, and the same signs and numbers. -/
structure Conserves (tokens : List Token) (text : List Char) : Prop where
  balanced : ∀ front, front <+: text → front.countP (· = ')') ≤ front.countP (· = '(')
  opening : text.countP (· = '(') = operators tokens
  closing : text.countP (· = ')') = operators tokens
  sign : ∀ c kind, (c, kind) ∈ signs → text.countP (· = c) = tokens.countP (·.kind = kind)
  digits : digitRuns text = (numbers tokens).map fun value => Nat.toDigits 10 value.toInt.toNat
  low : ∀ value ∈ numbers tokens, 0 ≤ value.toInt

theorem of_mem_signs {c : Char} {kind : Kind} (h : (c, kind) ∈ signs) :
    Kind.ofSymbol? c = some kind ∧ kind.power?.isSome ∧ c.isDigit = false ∧ c ≠ ' ' := by
  have all : ∀ entry ∈ signs, Kind.ofSymbol? entry.1 = some entry.2 ∧ entry.2.power?.isSome ∧
      entry.1.isDigit = false ∧ entry.1 ≠ ' ' := by decide
  exact all _ h

/-- A pair of parentheses around a text that is balanced. -/
theorem balanced_group {text : List Char}
    (h : ∀ front, front <+: text → front.countP (· = ')') ≤ front.countP (· = '('))
    (paired : Paired text) (front : List Char) (part : front <+: '(' :: text ++ [')']) :
    front.countP (· = ')') ≤ front.countP (· = '(') := by
  have inner : Nested (· = ')') (· = '(') 0 text := h
  have whole : Nested (· = ')') (· = '(') 0 ('(' :: (text ++ [')'])) := by
    rw [Nested.cons_iff, Nested.append_iff paired.symm]
    exact ⟨by decide, inner.mono (by decide), .of_countP_le (by decide)⟩
  exact whole front part

namespace Conserves
variable {tokens lefts rights : List Token} {text left right : List Char} {symbol : Char} {kind : Kind} {place : Span}

theorem literal {value : Int64} (h : 0 ≤ value.toInt) :
    Conserves [⟨.integer, .integer value, place⟩] (Literal.integer value).text.toList := by
  have text : (Literal.integer value).text.toList = Nat.toDigits 10 value.toInt.toNat := by
    rw [Literal.text, Int.repr_eq_if, if_pos h, Nat.toList_repr]
  have none {c : Char} (other : c.isDigit = false) := countP_toDigits value.toInt.toNat other
  rw [text]
  refine ⟨Nested.of_countP_le (none rfl).le, none rfl, none rfl, fun c kind mem => ?_, ?_, ?_⟩
  · obtain ⟨-, hp, digit, -⟩ := of_mem_signs mem
    obtain ⟨-, other, -⟩ := Kind.of_isSome_power? hp
    rw [none digit, List.countP_singleton, if_neg (by simp [other.symm])]
  · exact digitRuns_of_isDigit Nat.toDigits_ne_nil fun _ => Nat.isDigit_of_mem_toDigits (by decide) (by decide)
  · exact List.forall_mem_singleton.mpr h

theorem paired (h : Conserves tokens text) : Paired text :=
  h.opening.trans h.closing.symm

theorem operation (hl : Conserves lefts left) (hr : Conserves rights right) (hs : Kind.ofSymbol? symbol = some kind)
    (hp : kind.power?.isSome) :
    Conserves (lefts ++ ⟨kind, .symbol symbol, place⟩ :: rights)
      ('(' :: symbol :: ' ' :: (left ++ ' ' :: (right ++ [')']))) := by
  obtain ⟨ho, hc⟩ := not_paren_of_isSome_power? hs hp
  have digit : symbol.isDigit = false := not_isDigit_of_symbol (Kind.ofSymbol?_eq_some_iff.mp hs)
  have whole : '(' :: symbol :: ' ' :: (left ++ ' ' :: (right ++ [')'])) =
      '(' :: (symbol :: ' ' :: (left ++ ' ' :: right)) ++ [')'] := by simp
  refine ⟨?_, ?_, ?_, ?_, ?_, ?_⟩
  · have inner : Nested (· = ')') (· = '(') 0 ([symbol, ' '] ++ (left ++ ([' '] ++ right))) := by
      rw [Nested.append_iff (by simp [ho, hc]), Nested.append_iff hl.paired.symm, Nested.append_iff (by decide)]
      exact ⟨.of_countP_le (by simp [hc]), hl.balanced, .of_countP_le (by decide), hr.balanced⟩
    rw [whole]
    refine balanced_group inner ?_
    have pairedl := hl.paired
    have pairedr := hr.paired
    simp only [Paired] at pairedl pairedr ⊢
    simp [pairedl, pairedr, ho, hc]
  · rw [operators_operation hp, ← hl.opening, ← hr.opening]
    simp [ho]
  · rw [operators_operation hp, ← hl.closing, ← hr.closing]
    simp [hc]
    omega
  · intro c kind' mem
    obtain ⟨hs', hp', -, blank⟩ := of_mem_signs mem
    obtain ⟨ho', hc'⟩ := not_paren_of_isSome_power? hs' hp'
    have same : symbol = c ↔ kind = kind' := by
      refine ⟨?_, ?_⟩ <;> rintro rfl
      · exact Option.some.inj (hs.symm.trans hs')
      · exact Kind.ofSymbol?_injective hs hs'
    have lefts := hl.sign c kind' mem
    have rights := hr.sign c kind' mem
    simp [List.countP_cons, ho'.symm, hc'.symm, blank.symm, same, lefts, rights, Nat.add_assoc]
  · rw [digitRuns_cons rfl, digitRuns_cons digit, digitRuns_cons rfl, digitRuns_append_cons rfl,
      digitRuns_append_cons rfl, hl.digits, hr.digits]
    have nothing : digitRuns [] = [] := by decide
    rw [nothing, List.append_nil, numbers_append, numbers_symbol, List.map_append]
  · rw [numbers_append, numbers_symbol]
    exact List.forall_mem_append.mpr ⟨hl.low, hr.low⟩

/-- Parentheses and the closing token have no part in what is kept. -/
theorem of_ungrouped {last : Token} (h : Conserves (ungrouped tokens) text) (end_ : last.kind = .endOfText) :
    Conserves (tokens ++ [last]) text := by
  -- All that is counted are operators, and none of the tokens that are left out is one.
  have kept {p : Token → Bool} (hp : ∀ token, p token = true → token.kind.power?.isSome) :
      (ungrouped tokens).countP p = (tokens ++ [last]).countP p := by
    have other : ¬p last = true := fun hl => (Kind.of_isSome_power? (hp last hl)).1 end_
    rw [List.countP_append, List.countP_singleton, if_neg other, ungrouped, List.countP_filter]
    refine List.countP_congr fun token _ => ?_
    rw [Bool.and_eq_true, decide_eq_true_iff]
    exact and_iff_left_of_imp fun ht => (Kind.of_isSome_power? (hp token ht)).2.2
  have same : numbers (ungrouped tokens) = numbers (tokens ++ [last]) := by
    have other : numbers [last] = [] := by
      obtain ⟨kind, literal, span⟩ := last
      cases end_
      rfl
    rw [numbers_append, other, List.append_nil, ungrouped, numbers, List.filterMap_filter]
    refine List.filterMap_congr fun token _ => ?_
    obtain ⟨kind, literal, span⟩ := token
    cases kind <;> simp
  have count : operators (ungrouped tokens) = operators (tokens ++ [last]) := kept fun _ ht => ht
  refine ⟨h.balanced, h.opening.trans count, h.closing.trans count, fun c kind mem => ?_, same ▸ h.digits, same ▸ h.low⟩
  refine (h.sign c kind mem).trans (kept fun token ht => ?_)
  rw [of_decide_eq_true ht]
  exact (of_mem_signs mem).2.1

end Conserves

theorem Tree.Regular.conserves {tree : Tree} (h : tree.Regular) : Conserves tree.words tree.render.toList := by
  induction h with
  | literal low => exact .literal low
  | operation hp hs _ _ ihl ihr =>
    rw [toList_render_operation rfl]
    exact ihl.operation ihr hs hp

/-- The rendering of a text is balanced. It has one pair of parentheses for each operator of the text, each operator
    as often as the text has it, and the numbers of the text in their order. -/
theorem rendering_conserves (text : List Char) (label rendered : String)
    (h : evaluate text label .strict = .ok rendered) :
    ∃ tokens, tokenize text label = .ok tokens ∧ Conserves tokens rendered.toList := by
  rw [evaluate_eq_map_parse] at h
  rcases hp : parse text label .strict with error | tree
  · rw [hp] at h
    cases h
  · rw [hp] at h
    cases h
    obtain ⟨regular, -⟩ := regular_of_parse hp
    cases Parsing.of_eq hp with
    | @whole parser after tokens _ starts parsed _ hm =>
      have reads := starts.reads parsed.run
      exact ⟨_, reads.tokens_eq (parsed.derives.steps 0).kind_ne (hm rfl),
        .of_ungrouped (parsed.words ▸ regular.conserves) (hm rfl)⟩

/-- The parentheses and the zeros of the text are gone, and the product has parentheses that it had not. -/
theorem rendering_conserves_without_zeros :
    evaluate "(007)+1*(2-3)".toList "s" .strict = .ok "(+ 7 (* 1 (- 2 3)))" ∧
    ∃ tokens, tokenize "(007)+1*(2-3)".toList "s" = .ok tokens ∧ Conserves tokens "(+ 7 (* 1 (- 2 3)))".toList := by
  have accepted : evaluate "(007)+1*(2-3)".toList "s" .strict = .ok "(+ 7 (* 1 (- 2 3)))" := by cbv
  exact ⟨accepted, rendering_conserves _ "s" _ accepted⟩

end Polish
