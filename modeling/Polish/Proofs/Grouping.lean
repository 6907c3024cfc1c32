import Mathlib
import Polish.Proofs.Concatenation
import Polish.Proofs.Limits
import Polish.Proofs.Reprinting

/-! Texts put between parentheses. In a group a text is read as it is alone, with one group less to be opened and all
    places moved. So two groups with an operator between them are rendered as the operator before the renderings of
    both, unless a limit is met: then the first group is nested too deeply, or the operation is too high. -/

namespace Polish
open ParseM

/-! ### Nesting -/

theorem nests_append_of_plain {word text : List Char} {room : Nat} (plain : ∀ c ∈ word, c ≠ '(' ∧ c ≠ ')') :
    Nests room (word ++ text) ↔ Nests room text :=
  Nested.append_of_neither fun c hc => by simpa using plain c hc

namespace Cursor
variable {cursor after : Cursor} {token : Token} {tokens : List Token}

theorem nests_skipBlanks_iff {room : Nat} : Nests room cursor.skipBlanks.rest ↔ Nests room cursor.rest := by
  have split : cursor.rest.takeWhile isBlank ++ cursor.skipBlanks.rest = cursor.rest := List.takeWhile_append_dropWhile
  have plain : ∀ c ∈ cursor.rest.takeWhile isBlank, c ≠ '(' ∧ c ≠ ')' := by
    intro c hc
    have blank : isBlank c = true := List.all_eq_true.mp List.all_takeWhile c hc
    refine ⟨?_, ?_⟩ <;> rintro rfl <;> exact absurd blank (by decide)
  rw [← nests_append_of_plain plain, split]

/-- A word has the parentheses of its token. -/
theorem nests_of_next (hn : cursor.next = (.ok token, after)) (unended : token.kind ≠ .endOfText)
    (h : ∀ room, Nests room after.rest ↔ Shallow room tokens) (room : Nat) :
    Nests room cursor.rest ↔ Shallow room (token :: tokens) := by
  rw [← nests_skipBlanks_iff]
  simp only [next] at hn
  split at hn
  · cases hn
    exact absurd rfl unended
  · next kind literal size rest first =>
    cases hn
    have view := Lexeme.view_first cursor.skipBlanks.rest
    rw [first] at view
    generalize cursor.skipBlanks.rest = text at view
    cases view with
    | symbol mem =>
      have paren : ∀ entry ∈ symbols,
          (entry.1 = '(' ↔ entry.2 = .openParen) ∧ (entry.1 = ')' ↔ entry.2 = .closeParen) := by decide
      obtain ⟨ho, hc⟩ := paren _ mem
      refine Nested.cons_congr ?_ ?_ h room
      · exact decide_eq_decide.mpr ho
      · exact decide_eq_decide.mpr hc
    | @integer digits _ run _ =>
      have plain : ∀ c ∈ digits, c ≠ '(' ∧ c ≠ ')' := by
        intro c hc
        have digit := run.digits c hc
        refine ⟨?_, ?_⟩ <;> rintro rfl <;> cases digit
      rw [nests_append_of_plain plain, Shallow.cons_iff Kind.noConfusion Kind.noConfusion]
      exact h room
  · cases hn

theorem Reads.nests_iff {between : Cursor} {last : Token} (h : Reads cursor tokens between)
    (unended : ∀ token ∈ tokens, token.kind ≠ .endOfText) (hn : between.next.1 = .ok last)
    (hk : last.kind = .endOfText) (room : Nat) : Nests room cursor.rest ↔ Shallow room tokens := by
  induction h generalizing room with
  | nil =>
    rw [← nests_skipBlanks_iff, rest_skipBlanks_of_endOfText hn hk]
    exact iff_of_true (Nested.of_countP_le (Nat.zero_le _)) (Nested.of_countP_le (Nat.zero_le _))
  | cons hnext _ ih =>
    obtain ⟨first, others⟩ := List.forall_mem_cons.mp unended
    exact nests_of_next hnext first (ih others hn) room

end Cursor

/-! ### Tokens of texts put together -/

section
variable {category : Category} {tokens : List Token} {shape : Shape} {room bytes : Nat}

theorem Derives.shift (h : Derives category tokens shape) :
    Derives category (tokens.map (Token.shift bytes)) shape := by
  induction h with
  | integer hk hl => exact .integer hk hl
  | group ho _ hc ih =>
    rw [List.map_append, List.map_cons]
    exact .group ho ih hc
  | factor _ ih => exact .factor ih
  | term _ ih => exact .term ih
  | product _ hk _ ihl ihr =>
    rw [List.map_append, List.map_cons]
    exact .product ihl hk ihr
  | sum _ hk _ ihl ihr =>
    rw [List.map_append, List.map_cons]
    exact .sum ihl hk ihr

theorem shallow_shift_iff : Shallow room (tokens.map (Token.shift bytes)) ↔ Shallow room tokens := by
  induction tokens generalizing room with
  | nil => rfl
  | cons token tokens ih =>
    rw [List.map_cons]
    refine Nested.cons_congr ?_ ?_ (fun _ => ih) room <;> rfl

end

/-- The text has these tokens, and the closing one behind them. -/
def Yields (text : List Char) (label : String) (tokens : List Token) : Prop :=
  ∃ last, tokenize text label = .ok (tokens ++ [last])

/-- The text between parentheses. -/
def grouped (text : List Char) : List Char :=
  '(' :: text ++ [')']

/-- The token of a text with nothing in it but a symbol. -/
def Token.ofSymbol (symbol : Char) (kind : Kind) (label : String) : Token :=
  ⟨kind, .symbol symbol, ⟨0, label⟩, ⟨1, label⟩⟩

namespace Yields
variable {text a b : List Char} {label : String} {tokens ts us : List Token} {c : Char} {kind : Kind} {room : Nat}
  {tree : Tree}

theorem symbol (mem : (c, kind) ∈ symbols) : Yields [c] label [.ofSymbol c kind label] := by
  simp only [symbols, List.mem_cons, Prod.mk.injEq, List.not_mem_nil, or_false] at mem
  rcases mem with ⟨rfl, rfl⟩ | ⟨rfl, rfl⟩ | ⟨rfl, rfl⟩ | ⟨rfl, rfl⟩ | ⟨rfl, rfl⟩ | ⟨rfl, rfl⟩ <;>
    exact ⟨⟨.endOfText, .none, ⟨1, label⟩, ⟨1, label⟩⟩, by cbv⟩

theorem append (h : Yields a label ts) (h' : Yields b label us) (parted : Parted a b) :
    Yields (a ++ b) label (ts ++ us.map (Token.shift (Utf8.size a))) := by
  obtain ⟨last, ha⟩ := h
  obtain ⟨last', hb⟩ := h'
  obtain ⟨front, last'', split, -, both⟩ := tokenize_append_of_ok (b := b) parted ha
  obtain ⟨rfl, -⟩ := List.append_inj' split rfl
  refine ⟨last'.shift (Utf8.size a), ?_⟩
  rw [both, hb, List.append_assoc]
  simp only [Except.map, Except.mapError, List.map_append, List.map_cons, List.map_nil]

theorem group (h : Yields text label tokens) : ∃ opening closing, opening.kind = .openParen ∧
    closing.kind = .closeParen ∧
      Yields (grouped text) label (opening :: tokens.map (Token.shift 1) ++ [closing]) := by
  let opening : Token := .ofSymbol '(' .openParen label
  let closing : Token := .ofSymbol ')' .closeParen label
  have first : Yields ['('] label [opening] := symbol (by decide)
  have last : Yields [')'] label [closing] := symbol (by decide)
  have inner := h.append last fun _ d _ hd _ => by cases hd; rfl
  have whole := first.append inner fun c _ hc _ digit => by cases hc; cases digit
  have size : Utf8.size ['('] = 1 := by decide
  refine ⟨opening, (closing.shift (Utf8.size text)).shift 1, rfl, rfl, ?_⟩
  simpa [grouped, size] using whole

/-- As many parentheses are open at once in a text as among its tokens. -/
theorem nests_iff (h : Yields text label tokens) : Nests room text ↔ Shallow room tokens := by
  obtain ⟨last, ht⟩ := h
  obtain ⟨front, last', between, split, reads, unended, hn, hk⟩ := Cursor.tokens_eq_ok_iff.mp ht
  obtain ⟨rfl, -⟩ := List.append_inj' split rfl
  exact reads.nests_iff unended hn hk room

theorem operation (h : Yields a label ts) (h' : Yields b label us) (mem : (c, kind) ∈ symbols) :
    Yields (a ++ c :: b) label (ts ++ (Token.ofSymbol c kind label).shift (Utf8.size a) ::
      (us.map (Token.shift (Utf8.size [c]))).map (Token.shift (Utf8.size a))) := by
  have other : c.isDigit = false := not_isDigit_of_symbol mem
  have parted : Parted ([] ++ [c]) b := parted_concat other
  have behind : Yields ([c] ++ b) label _ := (symbol mem).append h' parted
  exact h.append behind fun _ d _ hd _ => by cases hd; exact other

theorem of_parse (h : parse text label .strict = .ok tree) : ∃ tokens, Yields text label tokens ∧
    Derives .formula tokens tree.shape ∧ Shallow maxDepth tokens ∧ tree.shape.levels ≤ maxHeight := by
  obtain ⟨tokens, last, cursor, reads, -, hm, derives, within⟩ := derives_of_parse h
  exact ⟨tokens, ⟨last, reads.tokens_eq (derives.steps 0).kind_ne (hm rfl)⟩, derives, within⟩

theorem group_of_parse (h : parse text label .strict = .ok tree) : ∃ tokens, Yields (grouped text) label tokens ∧
    Derives .factor tokens tree.shape ∧ (Shallow maxDepth tokens ↔ Nests (maxDepth - 1) text) ∧
      tree.shape.levels ≤ maxHeight := by
  obtain ⟨tokens, yields, derives, -, low⟩ := of_parse h
  obtain ⟨opening, closing, ho, hc, whole⟩ := yields.group
  refine ⟨_, whole, .group ho derives.shift hc, ?_, low⟩
  rw [Shallow.group_iff ho hc derives.shift.even, shallow_shift_iff, yields.nests_iff]
  exact and_iff_right (by decide)

/-- A text whose tokens derive a tree within the limits has the rendering of that tree. -/
theorem evaluate_eq (h : Yields text label tokens) (regular : tree.Regular)
    (derives : Derives .formula tokens tree.shape)
    (shallow : Shallow maxDepth tokens) (low : tree.shape.levels ≤ maxHeight) :
    evaluate text label .strict = .ok tree.render := by
  obtain ⟨last, ht⟩ := h
  obtain ⟨parsed, hp, heq⟩ := (parse_of_formula_iff ht derives .strict).mp ⟨shallow, low⟩
  obtain ⟨regular', -⟩ := regular_of_parse hp
  rw [evaluate_eq_map_parse, hp, ← tree.render_withoutSpans, ← regular'.withoutSpans_eq regular heq,
    Tree.render_withoutSpans]
  rfl

end Yields

/-! ### The operation is too high -/

section
variable {category : Category} {power : Power} {parser : Parser} {tokens lefts rights rest : List Token}
  {operator stop : Token} {shape left right : Shape} {room : Nat}

theorem Passes.within (h : Passes category room tokens shape parser rest) (shallow : Shallow room tokens)
    (low : shape.levels ≤ maxHeight) :
    ∃ tree after, tree.height = shape.levels ∧ after.depth = parser.depth ∧ after.Ahead rest ∧
      category.rule room parser = category.onwards room tree after := by
  rcases h with ⟨tree, after, -, height, depth, ahead, heq⟩ | ⟨limit, position, after, exceeds, -⟩
  · exact ⟨tree, after, height, depth, ahead, heq⟩
  · cases exceeds with
    | depth deep => exact absurd shallow deep
    | height high => exact absurd low (Nat.not_le_of_lt high)

/-- The error is at the operator when both its operands are within the limits. -/
theorem rule_of_high (hl : Derives power.category lefts left) (hp : operator.kind.power? = some power)
    (hr : Derives power.operand rights right) (hroom : room = maxDepth - parser.depth)
    (shallow : Shallow room lefts ∧ Shallow room rights) (low : left.levels ≤ maxHeight ∧ right.levels ≤ maxHeight)
    (high : maxHeight < max left.levels right.levels + 1) (ends : stop.kind.power? = none)
    (ahead : parser.Ahead (lefts ++ operator :: (rights ++ stop :: rest))) :
    ∃ after, power.category.rule room parser = (.error ⟨.tooDeep maxHeight, operator.span.start⟩, after) := by
  have loose : power.category = .formula → operator.kind.power? ≠ some .multiplicative := by
    rw [hp]
    cases power <;> nofun
  obtain ⟨tree, here, height, depth, ahead, heq⟩ := (passes_of_derives hl hroom ahead loose).within shallow.1 low.1
  obtain ⟨next, cursor, hn, ahead'⟩ := ahead.eat (by simp)
  have current : here.current = operator := ahead.current_eq
  have depth' : (here.consume next cursor).depth = parser.depth := depth
  obtain ⟨tree', after, height', -, ahead'', heq'⟩ := (passes_of_derives hr (depth' ▸ hroom) ahead' fun _ => by
    rw [ends]; nofun).within shallow.2 low.2
  have ends' : power.operand.Ends after.current.kind := by
    rw [ahead''.current_eq]
    cases power with
    | additive => exact fun h => by rw [ends] at h; cases h
    | multiplicative => trivial
  rw [Category.onwards_of_ends room tree' ends'] at heq'
  have high' : ¬(tree.combine operator tree').height ≤ maxHeight := by
    rw [Tree.height_combine, height, height']
    exact Nat.not_le_of_lt high
  rw [heq, power.onwards_category, run_chain, current, if_pos hp, eat_of_next (by rw [current]) hn]
  simp only [heq', current, if_neg high']
  exact ⟨_, rfl⟩

theorem parse_of_high {text : List Char} {label : String} (h : Yields text label (lefts ++ operator :: rights))
    (hl : Derives power.category lefts left) (hp : operator.kind.power? = some power)
    (hr : Derives power.operand rights right) (shallow : Shallow maxDepth lefts ∧ Shallow maxDepth rights)
    (low : left.levels ≤ maxHeight ∧ right.levels ≤ maxHeight) (high : maxHeight < max left.levels right.levels + 1) :
    parse text label .strict = .error ⟨.tooDeep maxHeight, operator.span.start⟩ := by
  obtain ⟨last, ht⟩ := h
  obtain ⟨end_, cursor, reads⟩ := reads_of_tokenize ht
  obtain ⟨token, between, hn⟩ := reads.exists_next (by simp)
  have starts : (Parser.begun .strict token between).Starts text label := ⟨hn, rfl⟩
  have ahead := starts.ahead reads (by simp)
  rw [List.append_assoc, List.cons_append] at ahead
  have ends := Kind.power?_of_endOfText end_
  have hroom : maxDepth = maxDepth - (Parser.begun .strict token between).depth := rfl
  obtain ⟨after, failed⟩ := rule_of_high hl hp hr hroom shallow low high ends ahead
  have failed : formula (.begun .strict token between) = (.error ⟨.tooDeep maxHeight, operator.span.start⟩, after) := by
    cases power with
    | additive => exact failed
    | multiplicative =>
      -- The term is the first of the formula.
      have first : termOf (groupWithin maxDepth) (.begun .strict token between) = _ := failed
      have whole : formula (.begun .strict token between) = formulaOf (groupWithin maxDepth) _ := rfl
      rw [whole, formulaOf, run_bind, first]
  rw [parse, parseLogged_of_next hn]
  simp only [failed]

end

/-! ### Two groups -/

section
variable {a b : List Char} {label : String} {c : Char} {kind : Kind} {power : Power} {left right : Tree}

theorem evaluate_grouped (ha : parse a label .strict = .ok left) (nests : Nests (maxDepth - 1) a) :
    evaluate (grouped a) label .strict = .ok left.render := by
  obtain ⟨tokens, yields, derives, shallow, low⟩ := Yields.group_of_parse ha
  obtain ⟨regular, -⟩ := regular_of_parse ha
  exact yields.evaluate_eq regular (derives.loosen (by decide)) (shallow.mpr nests) low

theorem parse_grouped_of_deep (ha : parse a label .strict = .ok left) (deep : ¬Nests (maxDepth - 1) a) :
    ∃ position, parse (grouped a) label .strict = .error ⟨.tooDeep maxDepth, position⟩ := by
  obtain ⟨tokens, ⟨last, ht⟩, derives, shallow, low⟩ := Yields.group_of_parse ha
  have derives : Derives .formula tokens left.shape := derives.loosen (by decide)
  obtain ⟨limit, position, exceeds, h⟩ :=
    exceeds_of_formula ht derives .strict fun within => deep (shallow.mp within.1)
  cases exceeds with
  | depth => exact ⟨position, h⟩
  | height high => exact absurd low (Nat.not_le_of_lt high)

/-- The error is met in the group, before anything behind it is read. -/
theorem parse_operation_of_deep {position : Position} (more : List Char)
    (h : parse (grouped a) label .strict = .error ⟨.tooDeep maxDepth, position⟩) :
    parse (grouped a ++ more) label .strict = .error ⟨.tooDeep maxDepth, position⟩ := by
  have parted : Parted (grouped a) more := parted_concat (by decide)
  rcases parse_append parted label .strict with same | ⟨-, passing⟩
  · exact same.trans h
  · exact absurd rfl (passing _ h)

/-- The operands of two groups with an operator between them are the groups. -/
theorem operands_of_parse (symbol : Kind.ofSymbol? c = some kind) (power : Power)
    (ha : parse a label .strict = .ok left) (hb : parse b label .strict = .ok right)
    (nests : Nests (maxDepth - 1) a ∧ Nests (maxDepth - 1) b) :
    ∃ lefts rights, Yields (grouped a ++ c :: grouped b) label
        (lefts ++ (Token.ofSymbol c kind label).shift (Utf8.size (grouped a)) :: rights) ∧
      Derives power.category lefts left.shape ∧ Derives power.operand rights right.shape ∧
        Shallow maxDepth lefts ∧ Shallow maxDepth rights := by
  obtain ⟨ts, yields, derives, shallow, -⟩ := Yields.group_of_parse ha
  obtain ⟨us, yields', derives', shallow', -⟩ := Yields.group_of_parse hb
  have whole := yields.operation yields' (Kind.ofSymbol?_eq_some_iff.mp symbol)
  refine ⟨ts, _, whole, derives.loosen ?_, derives'.shift.shift.loosen ?_, shallow.mpr nests.1, ?_⟩
  · cases power <;> decide
  · cases power <;> decide
  · rw [shallow_shift_iff, shallow_shift_iff]
    exact shallow'.mpr nests.2

theorem evaluate_operation (symbol : Kind.ofSymbol? c = some kind) (hp : kind.power? = some power)
    (ha : parse a label .strict = .ok left) (hb : parse b label .strict = .ok right)
    (nests : Nests (maxDepth - 1) a ∧ Nests (maxDepth - 1) b)
    (low : left.height < maxHeight ∧ right.height < maxHeight) :
    evaluate (grouped a ++ c :: grouped b) label .strict =
      .ok ("(" ++ c.toString ++ " " ++ left.render ++ " " ++ right.render ++ ")") := by
  obtain ⟨lefts, rights, yields, hl, hr, shallow, shallow'⟩ := operands_of_parse symbol power ha hb nests
  obtain ⟨regular, -⟩ := regular_of_parse ha
  obtain ⟨regular', -⟩ := regular_of_parse hb
  set operator : Token := (Token.ofSymbol c kind label).shift (Utf8.size (grouped a))
  have isSome : kind.power?.isSome := Option.isSome_of_eq_some hp
  obtain ⟨-, -, ho, hc⟩ := Kind.of_isSome_power? isSome
  have tree : (left.combine operator right).Regular := .operation isSome symbol regular regular'
  refine yields.evaluate_eq tree ((hl.operation hp hr).loosen (Nat.zero_le _)) ?_ ?_
  · exact (Shallow.append_iff hl.even).mpr ⟨shallow, (Shallow.cons_iff ho hc).mpr shallow'⟩
  · rw [tree.levels_eq, Tree.height_combine]
    omega

theorem parse_operation_of_high (symbol : Kind.ofSymbol? c = some kind) (hp : kind.power? = some power)
    (ha : parse a label .strict = .ok left) (hb : parse b label .strict = .ok right)
    (nests : Nests (maxDepth - 1) a ∧ Nests (maxDepth - 1) b) (high : max left.height right.height = maxHeight) :
    parse (grouped a ++ c :: grouped b) label .strict =
      .error ⟨.tooDeep maxHeight, ((Token.ofSymbol c kind label).shift (Utf8.size (grouped a))).span.start⟩ := by
  obtain ⟨lefts, rights, yields, hl, hr, shallow⟩ := operands_of_parse symbol power ha hb nests
  obtain ⟨regular, low, -⟩ := regular_of_parse ha
  obtain ⟨regular', low', -⟩ := regular_of_parse hb
  rw [← regular.levels_eq] at low high
  rw [← regular'.levels_eq] at low' high
  exact parse_of_high yields hl hp hr shallow ⟨low, low'⟩ (by rw [high]; exact Nat.lt_succ_self _)

end

theorem operator_of_mem {c : Char} (h : c ∈ ['+', '-', '*', '/']) :
    ∃ kind power, Kind.ofSymbol? c = some kind ∧ kind.power? = some power := by
  simp only [List.mem_cons, List.not_mem_nil, or_false] at h
  rcases h with rfl | rfl | rfl | rfl <;> exact ⟨_, _, rfl, rfl⟩

/-- A text that is accepted has the same rendering between parentheses, and two of them have both renderings behind
    the operator that stands between the groups. The limits are met one group and one level earlier: where the first
    text has as many parentheses inside each other as may be, and where an operand is as high as it may be, which is
    found at the operator. -/
theorem evaluate_is_compositional (a b : List Char) (c : Char) (label : String) (left : Tree)
    (operator : c ∈ ['+', '-', '*', '/']) (short : Utf8.size (grouped a ++ c :: grouped b) < UInt32.size)
    (ha : parse a label .strict = .ok left) :
    (Nests (maxDepth - 1) a → evaluate (grouped a) label .strict = .ok left.render) ∧
    (¬Nests (maxDepth - 1) a → ∃ position,
      evaluate (grouped a) label .strict = .error ⟨.tooDeep maxDepth, position⟩ ∧
        evaluate (grouped a ++ c :: grouped b) label .strict = .error ⟨.tooDeep maxDepth, position⟩) ∧
    ∀ right, parse b label .strict = .ok right → Nests (maxDepth - 1) a → Nests (maxDepth - 1) b →
      (left.height < maxHeight → right.height < maxHeight →
        evaluate (grouped a ++ c :: grouped b) label .strict =
          .ok ("(" ++ c.toString ++ " " ++ left.render ++ " " ++ right.render ++ ")")) ∧
      (max left.height right.height = maxHeight → ∃ position,
        position.offset.toNat = Utf8.size (grouped a) ∧ position.label = label ∧
          evaluate (grouped a ++ c :: grouped b) label .strict = .error ⟨.tooDeep maxHeight, position⟩) := by
  obtain ⟨kind, power, symbol, hp⟩ := operator_of_mem operator
  refine ⟨evaluate_grouped ha, fun deep => ?_, fun right hb nests nests' => ⟨fun low low' => ?_, fun high => ?_⟩⟩
  · obtain ⟨position, h⟩ := parse_grouped_of_deep ha deep
    exact ⟨position, evaluate_eq_error_iff.mpr h, evaluate_eq_error_iff.mpr (parse_operation_of_deep _ h)⟩
  · exact evaluate_operation symbol hp ha hb ⟨nests, nests'⟩ ⟨low, low'⟩
  · have h := parse_operation_of_high symbol hp ha hb ⟨nests, nests'⟩ high
    refine ⟨_, ?_, rfl, evaluate_eq_error_iff.mpr h⟩
    rw [Utf8.size_append] at short
    have fits : Position.Fits (Utf8.size (grouped a)) ⟨0, label⟩ :=
      Position.fits_of_le (Nat.zero_le 0) (by omega)
    exact fits.trans (Nat.zero_add _)

/-- The sum is in a group, so the operator that holds more tightly takes all of it. -/
theorem evaluate_is_compositional_around_sum :
    Utf8.size (grouped ['1', '+', '2'] ++ '*' :: grouped [' ', '3']) < UInt32.size ∧
    ∃ left right, parse ['1', '+', '2'] "s" .strict = .ok left ∧ parse [' ', '3'] "s" .strict = .ok right ∧
      Nests (maxDepth - 1) ['1', '+', '2'] ∧ Nests (maxDepth - 1) [' ', '3'] ∧
      left.height < maxHeight ∧ right.height < maxHeight ∧
      evaluate (grouped ['1', '+', '2'] ++ '*' :: grouped [' ', '3']) "s" .strict = .ok "(* (+ 1 2) 3)" := by
  have short : Utf8.size (grouped ['1', '+', '2'] ++ '*' :: grouped [' ', '3']) < UInt32.size := by decide
  let left : Tree :=
    .operation (.literal 1 ⟨⟨0, "s"⟩, ⟨1, "s"⟩⟩) ⟨.plus, .symbol '+', ⟨⟨1, "s"⟩, ⟨2, "s"⟩⟩⟩
      (.literal 2 ⟨⟨2, "s"⟩, ⟨3, "s"⟩⟩) 1 ⟨⟨0, "s"⟩, ⟨3, "s"⟩⟩
  have ha : parse ['1', '+', '2'] "s" .strict = .ok left := by cbv
  have hb : parse [' ', '3'] "s" .strict = .ok (.literal 3 ⟨⟨1, "s"⟩, ⟨2, "s"⟩⟩) := by cbv
  have nests : Nests (maxDepth - 1) ['1', '+', '2'] := Nested.of_countP_le (by decide)
  have nests' : Nests (maxDepth - 1) [' ', '3'] := Nested.of_countP_le (by decide)
  have low : left.height < maxHeight := by decide
  obtain ⟨-, -, both⟩ := evaluate_is_compositional ['1', '+', '2'] [' ', '3'] '*' "s" left (by decide) short ha
  exact ⟨short, left, _, ha, hb, nests, nests', low, by decide, (both _ hb nests nests').1 low (by decide)⟩

end Polish
