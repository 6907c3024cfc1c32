import Polish.Proofs.Rules

/-! The rules read all that the grammar derives. On the tokens of a derivation a rule comes to a tree of its
    shape and stands at the token behind them, unless the derivation is beyond a limit. -/

namespace Polish
open ParseM

/-- The tokens that the parser holds and reads next. -/
def Parser.Ahead (parser : Parser) (tokens : List Token) : Prop :=
  parser.current.Coherent ∧ ∃ rest after, tokens = parser.current :: rest ∧ parser.cursor.Reads rest after

namespace Parser.Ahead
variable {parser : Parser} {token : Token} {tokens : List Token}

theorem current_eq (h : parser.Ahead (token :: tokens)) : parser.current = token := by
  obtain ⟨-, rest, after, heq, -⟩ := h
  exact (List.cons.inj heq).1.symm

theorem eat (h : parser.Ahead (token :: tokens)) (hne : tokens ≠ []) :
    ∃ next cursor, parser.cursor.next = (.ok next, cursor) ∧ (parser.consume next cursor).Ahead tokens := by
  obtain ⟨-, rest, after, heq, hr⟩ := h
  obtain ⟨-, rfl⟩ := List.cons.inj heq
  cases hr with
  | nil => exact absurd rfl hne
  | @cons _ cursor _ next rest hn hr =>
    exact ⟨next, cursor, hn, (Cursor.step_of_next hn).coherent, rest, after, rfl, hr⟩

end Parser.Ahead

/-! ### Limits -/

/-- The tokens need more groups than there is room for, or their shape has too many levels; with the limit that is
    named then. -/
inductive Exceeds (room : Nat) (tokens : List Token) (shape : Shape) : Nat → Prop
  | depth : ¬Shallow room tokens → Exceeds room tokens shape maxDepth
  | height : maxHeight < shape.levels → Exceeds room tokens shape maxHeight

theorem Exceeds.mono {room room' limit : Nat} {part whole : List Token} {shape shape' : Shape}
    (h : Exceeds room part shape limit) (hs : Shallow room' whole → Shallow room part)
    (hl : shape.levels ≤ shape'.levels) : Exceeds room' whole shape' limit := by
  cases h with
  | depth h => exact .depth fun h' => h (hs h')
  | height h => exact .height (Nat.lt_of_lt_of_le h hl)

/-! ### Reading a derivation -/

/-- How a rule goes on when it has a tree. -/
def Category.onwards (room : Nat) : Category → Tree → ParseM Tree
  | .formula => chain .additive (termOf (groupWithin room))
  | .term => chain .multiplicative (factorOf (groupWithin room))
  | .factor => pure

theorem Power.onwards_category (power : Power) (room : Nat) :
    power.category.onwards room = chain power (power.operand.rule room) := by
  cases power <;> rfl

theorem Category.onwards_of_ends {category : Category} {parser : Parser} (room : Nat) (tree : Tree)
    (h : category.Ends parser.current.kind) : category.onwards room tree parser = (.ok tree, parser) := by
  cases category with
  | factor => rfl
  | term => rw [onwards, run_chain, if_neg h]
  | formula =>
    have hp : parser.current.kind.power? ≠ some .additive := by
      rw [h]
      nofun
    rw [onwards, run_chain, if_neg hp]

/-- The rule comes past the tokens of a derivation, and the rest is ahead, or it meets a limit. -/
def Passes (category : Category) (room : Nat) (tokens : List Token) (shape : Shape) (parser : Parser)
    (rest : List Token) : Prop :=
  (∃ tree after, tree.shape = shape ∧ tree.height = shape.levels ∧ after.depth = parser.depth ∧ after.Ahead rest ∧
    category.rule room parser = category.onwards room tree after) ∨
  ∃ limit position after, Exceeds room tokens shape limit ∧
    category.rule room parser = (.error ⟨.tooDeep limit, position⟩, after)

section
variable {room : Nat} {tokens lefts rights rest : List Token} {shape left right : Shape}
  {parser : Parser} {operator stop : Token}

theorem Passes.of_operand (power : Power) (h : Passes power.operand room tokens shape parser (stop :: rest))
    (ends : power.operand.Ends stop.kind) : Passes power.category room tokens shape parser (stop :: rest) := by
  rcases h with ⟨tree, after, h1, h2, h3, h4, h5⟩ | ⟨limit, position, after, hx, h⟩
  · refine Or.inl ⟨tree, after, h1, h2, h3, h4, ?_⟩
    rw [Category.onwards_of_ends room tree (h4.current_eq ▸ ends)] at h5
    rw [power.rule_category, run_bind, h5, power.onwards_category]
  · refine Or.inr ⟨limit, position, after, hx, ?_⟩
    rw [power.rule_category, run_bind, h]

theorem Passes.operation (power : Power) (hl : Derives power.category lefts left)
    (hp : operator.kind.power? = some power)
    (h : Passes power.category room lefts left parser (operator :: (rights ++ stop :: rest)))
    (h' : ∀ inner : Parser, inner.depth = parser.depth → inner.Ahead (rights ++ stop :: rest) →
      Passes power.operand room rights right inner (stop :: rest)) (ends : power.operand.Ends stop.kind) :
    Passes power.category room (lefts ++ operator :: rights) (.operation left operator.kind right) parser
      (stop :: rest) := by
  obtain ⟨-, -, ho, hc⟩ := Kind.of_isSome_power? (Option.isSome_of_eq_some hp)
  have shallow : Shallow room (lefts ++ operator :: rights) → Shallow room lefts ∧ Shallow room rights := fun hs =>
    ((Shallow.append_iff hl.even).mp hs).imp_right (Shallow.cons_iff ho hc).mp
  have levels : (Shape.operation left operator.kind right).levels = max left.levels right.levels + 1 := rfl
  rcases h with ⟨tree, here, rfl, hh, hd, ha, heq⟩ | ⟨limit, position, after, hx, heq⟩
  · obtain ⟨next, cursor, hn, ha'⟩ := ha.eat (by simp)
    have current := ha.current_eq
    rw [power.onwards_category, run_chain, current, if_pos hp, eat_of_next (by rw [current]) hn] at heq
    rcases h' (here.consume next cursor) hd ha' with ⟨tree', after, rfl, hh', hd', ha'', heq'⟩ |
      ⟨limit, position, after, hx, heq'⟩
    · rw [Category.onwards_of_ends room tree' (ha''.current_eq ▸ ends)] at heq'
      simp only [heq'] at heq
      have height : (tree.combine operator tree').height =
          (Shape.operation tree.shape operator.kind tree'.shape).levels := by
        rw [Tree.height_combine, hh, hh', levels]
      by_cases low : (tree.combine here.current tree').height ≤ maxHeight
      · rw [if_pos low, current] at heq
        refine Or.inl ⟨tree.combine operator tree', { after with log := after.log.push (.folding operator.kind power) },
          rfl, height, hd'.trans hd, ha'', ?_⟩
        rw [heq, power.onwards_category]
      · rw [if_neg low] at heq
        rw [current, height] at low
        exact Or.inr ⟨maxHeight, _, _, .height (Nat.lt_of_not_le low), heq⟩
    · simp only [heq'] at heq
      exact Or.inr ⟨limit, position, _, hx.mono (fun hs => (shallow hs).2) (by omega), heq⟩
  · exact Or.inr ⟨limit, position, after, hx.mono (fun hs => (shallow hs).1) (by omega), heq⟩

theorem passes_integer {token : Token} {value : Int64} (hk : token.kind = .integer)
    (hl : token.literal = .integer value) (ha : parser.Ahead ([token] ++ stop :: rest)) :
    Passes .factor room [token] (.literal value) parser (stop :: rest) := by
  obtain ⟨next, cursor, hn, ha'⟩ := Parser.Ahead.eat ha (List.cons_ne_nil _ _)
  have current : parser.current = token := Parser.Ahead.current_eq ha
  refine Or.inl ⟨.literal value token.span, parser.consume next cursor, rfl, rfl, rfl, ha', ?_⟩
  rw [Category.rule, factorOf_of_integer (by rw [current, hl]), eat_of_next (by rw [current, hk]) hn, current]
  rfl

theorem passes_group {opening closing : Token} (ho : opening.kind = .openParen) (hc : closing.kind = .closeParen)
    (hd : Derives .formula tokens shape) (hr : room = maxDepth - parser.depth)
    (ha : parser.Ahead (opening :: tokens ++ [closing] ++ stop :: rest))
    (h : ∀ (inner : Parser) (room : Nat), room = maxDepth - inner.depth →
      inner.Ahead (tokens ++ closing :: stop :: rest) →
      Passes .formula room tokens shape inner (closing :: stop :: rest)) :
    Passes .factor room (opening :: tokens ++ [closing]) shape parser (stop :: rest) := by
  have current : parser.current = opening := Parser.Ahead.current_eq ha
  have notInteger (value : Int64) : parser.current.literal ≠ .integer value := by
    intro hl
    have hk := ha.1.mpr ⟨value, hl⟩
    rw [current, ho] at hk
    cases hk
  have grouped : Shallow room (opening :: tokens ++ [closing]) ↔ _ := Shallow.group_iff ho hc hd.even
  rw [Passes, Category.rule, factorOf_of_ne notInteger, if_pos (by rw [current, ho])]
  cases room with
  | zero =>
    refine Or.inr ⟨maxDepth, _, _, .depth fun hs => ?_, rfl⟩
    exact Nat.lt_irrefl 0 (grouped.mp hs).1
  | succ room =>
    have lt : parser.depth < maxDepth := by omega
    rw [List.append_assoc, List.singleton_append] at ha
    have ha' : parser.enter.Ahead (opening :: (tokens ++ closing :: stop :: rest)) := ha
    obtain ⟨next, cursor, hn, ha''⟩ := ha'.eat (by simp)
    have depth : (parser.enter.consume next cursor).depth = parser.depth + 1 := rfl
    have inner := h (parser.enter.consume next cursor) room (by omega) ha''
    rw [groupWithin_of_lt room lt, eat_of_next (ha'.current_eq ▸ ho) hn]
    rcases inner with ⟨tree, here, h1, h2, hd', hahead, heq⟩ | ⟨limit, position, after, hx, heq⟩
    · obtain ⟨next', cursor', hn', hahead'⟩ := hahead.eat (List.cons_ne_nil _ _)
      have ends : Category.Ends .formula here.current.kind := by
        rw [hahead.current_eq, Category.Ends, hc]
        rfl
      rw [Category.rule, Category.onwards_of_ends room tree ends] at heq
      simp only [heq, eat_of_next (hahead.current_eq ▸ hc) hn']
      have left : (here.consume next' cursor').leave.depth = parser.depth := Nat.sub_eq_of_eq_add (hd'.trans depth)
      exact Or.inl ⟨tree, (here.consume next' cursor').leave, h1, h2, left, hahead', rfl⟩
    · rw [Category.rule] at heq
      simp only [heq]
      exact Or.inr ⟨limit, position, after, hx.mono (fun hs => (grouped.mp hs).2) (Nat.le_refl _), rfl⟩

theorem passes_of_derives {category : Category} (h : Derives category tokens shape)
    (hr : room = maxDepth - parser.depth) (ha : parser.Ahead (tokens ++ stop :: rest))
    (loose : category = .formula → stop.kind.power? ≠ some .multiplicative) :
    Passes category room tokens shape parser (stop :: rest) := by
  -- The derivation goes down the operators on the left, and so past them in the order in which the chain folds them.
  induction h generalizing parser room stop rest with
  | integer hk hl => exact passes_integer hk hl ha
  | group ho hd hc ih => exact passes_group ho hc hd hr ha fun inner room hr ha => ih hr ha fun _ => by rw [hc]; nofun
  | factor _ ih => exact Passes.of_operand .multiplicative (ih hr ha nofun) trivial
  | term _ ih => exact Passes.of_operand .additive (ih hr ha nofun) (loose rfl)
  | product hl hk _ ihl ihr =>
    have hp := Kind.power?_eq_multiplicative_iff.mpr hk
    refine Passes.operation .multiplicative hl hp (ihl hr ?_ nofun) (fun inner hd ha => ihr (hd ▸ hr) ha nofun) trivial
    simpa only [List.append_assoc, List.cons_append] using ha
  | sum hl hk _ ihl ihr =>
    have hp := Kind.power?_eq_additive_iff.mpr hk
    refine Passes.operation .additive hl hp (ihl hr ?_ fun _ => ?_)
      (fun inner hd ha => ihr (hd ▸ hr) ha nofun) (loose rfl)
    · simpa only [List.append_assoc, List.cons_append] using ha
    · rw [hp]
      nofun

/-- Within the limits the tokens of a formula are read to their end, if no operator stands behind them. -/
theorem formula_of_derives (h : Derives .formula tokens shape) (ha : parser.Ahead (tokens ++ stop :: rest))
    (ends : stop.kind.power? = none) (shallow : Shallow (maxDepth - parser.depth) tokens)
    (low : shape.levels ≤ maxHeight) :
    ∃ tree after, formula parser = (.ok tree, after) ∧ tree.shape = shape ∧ after.current = stop := by
  rcases passes_of_derives h rfl ha fun _ => by rw [ends]; nofun with ⟨tree, after, h1, -, -, hahead, heq⟩ |
    ⟨limit, position, after, hx, -⟩
  · have current := hahead.current_eq
    rw [Category.onwards_of_ends _ tree (by rw [current]; exact ends)] at heq
    exact ⟨tree, after, heq, h1, current⟩
  · cases hx with
    | depth h => exact absurd shallow h
    | height h => exact absurd low (Nat.not_le_of_lt h)

end

end Polish
