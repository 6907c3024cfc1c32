import Polish.Proofs.Correspondence

/-! Labels. Every position that is made while a text is read carries the label of the text, and nothing else depends
    on it: with another label all is the same but for the label of the positions. -/

namespace Polish

/-! ### Positions and their labels -/

/-- The same offset in a text with this label. -/
def Position.relabel (label : String) (position : Position) : Position :=
  { position with label }

/-- The same span in a text with this label. -/
def Span.relabel (label : String) (span : Span) : Span :=
  ⟨span.start.relabel label, span.stop.relabel label⟩

/-- The same token in a text with this label. -/
def Token.relabel (label : String) (token : Token) : Token :=
  { token with span := token.span.relabel label }

/-- The same error in a text with this label. -/
def Error.relabel (label : String) (error : Error) : Error :=
  { error with position := error.position.relabel label }

/-- The same tree, with this label in each of its positions. -/
def Tree.relabel (label : String) : Tree → Tree
  | literal value span => .literal value (span.relabel label)
  | operation left operator right height span =>
    .operation (left.relabel label) (operator.relabel label) (right.relabel label) height (span.relabel label)

/-- Both ends of a span. -/
def Span.positions (span : Span) : List Position :=
  [span.start, span.stop]

/-- All positions in a tree, those of its operators among them. -/
def Tree.positions : Tree → List Position
  | literal _ span => span.positions
  | operation left operator right _ span =>
    left.positions ++ operator.span.positions ++ right.positions ++ span.positions

/-- All positions in a result, which may be an error, carry the label. -/
def Labelled {α : Type} (label : String) (positions : α → List Position) : Except Error α → Prop
  | .ok value => ∀ position ∈ positions value, position.label = label
  | .error error => error.position.label = label

/-! ### Reading -/

/-- The cursor at the same place of a text with this label. -/
def Cursor.relabel (label : String) (cursor : Cursor) : Cursor :=
  { cursor with label }

theorem Cursor.next_relabel (cursor : Cursor) (label : String) :
    (cursor.relabel label).next =
      ((cursor.next.1.map (Token.relabel label)).mapError (Error.relabel label), cursor.next.2.relabel label) := by
  have here : (cursor.relabel label).skipBlanks = cursor.skipBlanks.relabel label := rfl
  have rest : (cursor.skipBlanks.relabel label).rest = cursor.skipBlanks.rest := rfl
  -- The lexeme is found among the characters alone, and the label comes in with its position.
  simp only [next, here, rest]
  cases Lexeme.first cursor.skipBlanks.rest <;> rfl

/-- Places correspond that differ in their labels alone, which are the given ones. -/
def labels (label other : String) : Correspondence where
  start position position' := position.label = label ∧ position' = position.relabel other
  stop position position' := position.label = label ∧ position' = position.relabel other
  cursors cursor cursor' := cursor.label = label ∧ cursor' = cursor.relabel other
  next := by
    rintro cursor _ ⟨rfl, rfl⟩
    have kept := cursor.label_next
    rw [cursor.next_relabel]
    rcases hn : cursor.next with ⟨error | token, after⟩ <;> rw [hn] at kept
    · obtain ⟨position, -⟩ := Cursor.of_next_eq_error hn
      exact .error ⟨rfl, congrArg Position.label position, rfl⟩
    · have step := Cursor.step_of_next hn
      have start : token.span.start.label = cursor.label := congrArg Position.label step.start
      have stop : token.span.stop.label = cursor.label := (congrArg Position.label step.stop).trans kept
      exact .ok ⟨rfl, rfl, ⟨start, rfl⟩, ⟨stop, rfl⟩⟩ fun _ => ⟨kept, rfl⟩

namespace labels
variable {label other : String}

theorem ofText (text : List Char) :
    (labels label other).cursors (.ofText text label) (.ofText text other) :=
  ⟨rfl, rfl⟩

theorem of_spans {span span' : Span} (h : (labels label other).Spans span span') :
    (∀ position ∈ span.positions, position.label = label) ∧ span' = span.relabel other := by
  obtain ⟨start', stop'⟩ := span'
  obtain ⟨⟨start, rfl⟩, stop, rfl⟩ := h
  exact ⟨List.forall_mem_cons.mpr ⟨start, List.forall_mem_singleton.mpr stop⟩, rfl⟩

theorem of_tokens {token token' : Token} (h : (labels label other).Tokens token token') :
    (∀ position ∈ token.span.positions, position.label = label) ∧ token' = token.relabel other := by
  obtain ⟨kind', literal', span'⟩ := token'
  obtain ⟨rfl, rfl, spans⟩ := h
  obtain ⟨positions, rfl⟩ := of_spans spans
  exact ⟨positions, rfl⟩

theorem of_trees {tree tree' : Tree} (h : (labels label other).Trees tree tree') :
    (∀ position ∈ tree.positions, position.label = label) ∧ tree' = tree.relabel other := by
  induction h with
  | literal spans =>
    obtain ⟨positions, rfl⟩ := of_spans spans
    exact ⟨positions, rfl⟩
  | operation _ operators _ spans ihl ihr =>
    obtain ⟨lefts, rfl⟩ := ihl
    obtain ⟨between, rfl⟩ := of_tokens operators
    obtain ⟨rights, rfl⟩ := ihr
    obtain ⟨positions, rfl⟩ := of_spans spans
    simp only [Tree.positions, List.forall_mem_append]
    exact ⟨⟨⟨⟨lefts, between⟩, rights⟩, positions⟩, rfl⟩

theorem of_all_tokens {tokens tokens' : List Token} (h : List.Forall₂ (labels label other).Tokens tokens tokens') :
    (∀ position ∈ tokens.flatMap (·.span.positions), position.label = label) ∧
      tokens' = tokens.map (Token.relabel other) := by
  induction h with
  | nil => exact ⟨nofun, rfl⟩
  | cons first _ ih =>
    obtain ⟨positions, rfl⟩ := of_tokens first
    obtain ⟨others, rfl⟩ := ih
    rw [List.flatMap_cons]
    exact ⟨List.forall_mem_append.mpr ⟨positions, others⟩, rfl⟩

/-- Results that correspond carry the one label, and with the other in its place they are the same. -/
theorem of_results {α : Type} {R : α → α → Prop} {positions : α → List Position} {relabel : α → α}
    {result result' : Except Error α} (h : (labels label other).Results R result result')
    (hR : ∀ value value', R value value' →
      (∀ position ∈ positions value, position.label = label) ∧ value' = relabel value) :
    Labelled label positions result ∧ result' = (result.map relabel).mapError (Error.relabel other) := by
  cases h with
  | ok values =>
    obtain ⟨labelled, rfl⟩ := hR _ _ values
    exact ⟨labelled, rfl⟩
  | @error error error' errors =>
    obtain ⟨fault', position'⟩ := error'
    obtain ⟨rfl, labelled, rfl⟩ := errors
    exact ⟨labelled, rfl⟩

end labels

/-! ### Whole texts -/

section
variable (text : List Char) (mode : Mode) (label other : String)

theorem tokenize_relabel :
    Labelled label (List.flatMap (·.span.positions)) (tokenize text label) ∧
      tokenize text other =
        ((tokenize text label).map (List.map (Token.relabel other))).mapError (Error.relabel other) :=
  labels.of_results (Correspondence.tokens (labels.ofText text)) fun _ _ => labels.of_all_tokens

theorem parse_relabel :
    Labelled label Tree.positions (parse text label mode) ∧
      parse text other mode = ((parse text label mode).map (Tree.relabel other)).mapError (Error.relabel other) :=
  labels.of_results (Correspondence.parse (labels.ofText text) mode) fun _ _ => labels.of_trees

theorem Tree.render_relabel (tree : Tree) : (tree.relabel label).render = tree.render := by
  induction tree with
  | literal => rfl
  | operation left operator right height span ihl ihr =>
    rw [relabel, render, render, ihl, ihr]
    rfl

/-- A rendering shows no position, so only errors have a label to carry. -/
theorem evaluate_relabel :
    Labelled label (fun _ => []) (evaluate text label mode) ∧
      evaluate text other mode = (evaluate text label mode).mapError (Error.relabel other) := by
  obtain ⟨labelled, same⟩ := parse_relabel text mode label other
  rw [evaluate_eq_map_parse, evaluate_eq_map_parse, same]
  generalize parse text label mode = result at labelled
  rcases result with error | tree
  · exact ⟨labelled, rfl⟩
  · exact ⟨nofun, congrArg Except.ok (tree.render_relabel other)⟩

end

/-- Whatever comes of a text that is given with a label carries this label and no other, and given with another label the
    same comes of it, with that label in its positions. A text that is given with no label is read as one with the
    usual label. -/
theorem labels_are_carried (text : List Char) (mode : Mode) (label other : String) :
    (Labelled label (List.flatMap (·.span.positions)) (tokenize text (labelOf (some label))) ∧
      Labelled label Tree.positions (parse text (labelOf (some label)) mode) ∧
      Labelled label (fun _ => []) (evaluate text (labelOf (some label)) mode)) ∧
    tokenize text (labelOf (some other)) =
      ((tokenize text (labelOf (some label))).map (List.map (Token.relabel other))).mapError (Error.relabel other) ∧
    parse text (labelOf (some other)) mode =
      ((parse text (labelOf (some label)) mode).map (Tree.relabel other)).mapError (Error.relabel other) ∧
    evaluate text (labelOf (some other)) mode =
      (evaluate text (labelOf (some label)) mode).mapError (Error.relabel other) ∧
    tokenize text (labelOf none) = tokenize text (labelOf (some "shell")) ∧
    parse text (labelOf none) mode = parse text (labelOf (some "shell")) mode ∧
    evaluate text (labelOf none) mode = evaluate text (labelOf (some "shell")) mode := by
  simp only [labelOf_some, labelOf_none, and_true]
  obtain ⟨tokens, tokens'⟩ := tokenize_relabel text label other
  obtain ⟨tree, tree'⟩ := parse_relabel text mode label other
  obtain ⟨rendering, rendering'⟩ := evaluate_relabel text mode label other
  exact ⟨⟨tokens, tree, rendering⟩, tokens', tree', rendering'⟩

end Polish
