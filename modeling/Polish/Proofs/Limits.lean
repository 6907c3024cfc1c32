import Mathlib
import Polish.Proofs.Acceptance
import Polish.Proofs.Folding

/-! The errors about limits. They are at the first parenthesis that opens a group too many, or at the first operator
    whose operation is too high, and a formula that cannot be parsed is beyond a limit that the error names. -/

namespace Polish
open ParseM Event

variable {text : List Char} {label : String} {mode : Mode} {limit : Nat} {position : Position} {tokens : List Token}
  {shape : Shape}

/-! ### Where a limit is met -/

/-- A limit that is met in a text is met by the parser that begins with it, and all that was recorded before was
    recorded by that parser. -/
theorem beyond_of_parse (h : parse text label mode = .error ⟨.tooDeep limit, position⟩) :
    ∃ parser after, parser.Starts text label ∧ foldedIn parser.log = [] ∧
      (parseLogged text label mode).2 = after.log ∧ Beyond .formula parser limit position after := by
  have logged := logged text label mode
  rw [parse] at h
  generalize parseLogged text label mode = result at h logged ⊢
  cases logged with
  | refused | read => cases h
  | unread hn =>
    cases h
    exact (Cursor.of_next_eq_error hn).2.2.elim
  | @failed token cursor _ after hn hf =>
    cases h
    have starts : (Parser.begun mode token cursor).Starts text label := ⟨hn, rfl⟩
    have clean : foldedIn (Parser.begun mode token cursor).log = [] := by
      rw [Parser.begun, foldedIn_push, foldedIn_ofRead]
      rfl
    have traced : Traced .formula (Parser.begun mode token cursor) (formula (.begun mode token cursor)) :=
      traced_rule .formula (Nat.zero_le _) starts.coherent
    rw [hf] at traced
    cases traced with
    | beyond h => exact ⟨_, after, starts, clean, rfl, h⟩
    | other h => exact absurd rfl (h limit)

/-- The position is that of `opening`, the first parenthesis in the text to open a group while as many as may be are
    open. -/
structure TooManyGroups (text : List Char) (label : String) (position : Position) (before : List Token)
    (opening : Token) : Prop where
  begins : (Cursor.ofText text label).Begins before
  nth : (Cursor.ofText text label).nth before.length = .ok opening
  kind : opening.kind = .openParen
  position_eq : position = opening.span.start
  open_eq : opens before = closes before + maxDepth
  first : ∀ front token, front ++ [token] <+: before → token.kind = .openParen →
    opens front ≠ closes front + maxDepth

/-- An operator of the text with its two operands, which are as long as they can be. In front of them there are
    trees, with an operator behind each that waits for its right operand. The text begins as if behind an opening. -/
structure Operands (text : List Char) (label : String) (waiting : List (Tree × Token)) (left : Tree) (operator : Token)
    (right : Tree) (power : Power) (front lefts rights : List Token) (stop : Token) : Prop where
  begins : (Cursor.ofText text label).Begins (front ++ (lefts ++ operator :: rights) ++ [stop])
  power_eq : operator.kind.power? = some power
  follows : power.category.Follows (lastKind .openParen front)
  left : Derives power.category lefts left.shape ∧ left.words = ungrouped lefts
  right : Derives power.operand rights right.shape ∧ right.words = ungrouped rights
  ends : power.operand.Ends stop.kind
  waiting : ungrouped front = waiting.flatMap fun entry => entry.1.words ++ [entry.2]

/-- The position is that of `operator`, whose operands are `left` and `right`. Its operation is the first that is too
    high: all that was put together before are the operations of the operands and of the trees that wait. -/
structure TooHigh (text : List Char) (label : String) (mode : Mode) (position : Position)
    (waiting : List (Tree × Token)) (left : Tree) (operator : Token) (right : Tree) : Prop where
  operands : ∃ power front lefts rights stop,
    Operands text label waiting left operator right power front lefts rights stop
  position_eq : position = operator.span.start
  low : ∀ tree ∈ left :: right :: waiting.map Prod.fst, tree.Formed ∧ tree.height ≤ maxHeight ∧
    ∀ operation ∈ tree.operations, operation.height ≤ maxHeight
  full : left.height = maxHeight ∨ right.height = maxHeight
  folded : foldedIn (parseLogged text label mode).2 =
    waiting.flatMap (·.1.foldings) ++ (left.combine operator right).foldings

/-- An error about a limit is right about the limit and the place. -/
theorem exceeded_of_parse (h : parse text label mode = .error ⟨.tooDeep limit, position⟩) :
    (limit = maxDepth ∧ ∃ before opening, TooManyGroups text label position before opening) ∨
      (limit = maxHeight ∧ ∃ waiting left operator right,
        TooHigh text label mode position waiting left operator right) := by
  obtain ⟨parser, after, starts, clean, log, beyond⟩ := beyond_of_parse h
  cases beyond with
  | @depth front waiting _ awaits hk hd =>
    obtain ⟨begins, nth, -⟩ := Cursor.reads_concat_iff.mp (starts.reads awaits.run)
    have depth := awaits.depth
    have shallow := awaits.shallow
    rw [starts.depth] at depth shallow
    refine Or.inl ⟨rfl, front, after.current, begins, nth, hk, rfl, by omega, fun part token hp ho excess => ?_⟩
    have within := shallow _ hp
    simp [ho] at within
    omega
  | @height front lefts rights waiting between here after power left right next cursor awaits hl hp hn hr ends high =>
    have reads := starts.reads (awaits.run.trans ((hl.run.eat hn).trans hr.run))
    obtain ⟨begins, -⟩ := Cursor.reads_iff_begins.mp reads
    rw [List.append_assoc lefts, List.singleton_append] at begins
    rw [Tree.height_combine] at high
    have all : ∀ tree ∈ left :: right :: waiting.map Prod.fst, tree.Formed ∧ tree.height ≤ maxHeight := by
      refine List.forall_mem_cons.mpr ⟨⟨hl.formed, hl.low⟩, List.forall_mem_cons.mpr ⟨⟨hr.formed, hr.low⟩, ?_⟩⟩
      exact List.forall_mem_map.mpr awaits.low
    have low := hl.low
    have low' := hr.low
    refine Or.inr ⟨rfl, waiting, left, here.current, right, ?_, rfl, fun tree mem => ?_, by omega, ?_⟩
    · exact ⟨power, front, lefts, rights, after.current, begins, hp, awaits.follows _ rfl, ⟨hl.derives, hl.words⟩,
        ⟨hr.derives, hr.words⟩, ends, awaits.words⟩
    · obtain ⟨formed, low⟩ := all tree mem
      exact ⟨formed, low, fun operation mem => Nat.le_trans (formed.height_le mem) low⟩
    · rw [log, folded_operation hl hp hr.folded, awaits.folded, clean]
      rfl

/-! ### Formulas beyond a limit -/

theorem reads_of_tokenize {last : Token} (h : tokenize text label = .ok (tokens ++ [last])) :
    last.kind = .endOfText ∧ ∃ cursor, (Cursor.ofText text label).Reads (tokens ++ [last]) cursor := by
  obtain ⟨front, last', between, heq, reads, -, hn, end_⟩ := Cursor.tokens_eq_ok_iff.mp h
  obtain ⟨rfl, hlast⟩ := List.append_inj' heq rfl
  cases hlast
  exact ⟨end_, _, reads.concat (Prod.ext hn rfl)⟩

section
variable {last : Token} (ht : tokenize text label = .ok (tokens ++ [last])) (hd : Derives .formula tokens shape)
include ht hd

/-- A formula is parsed to its tree, or it is beyond the limit that is met. -/
theorem parse_of_formula (mode : Mode) : (∃ tree, parse text label mode = .ok tree ∧ tree.shape = shape) ∨
    ∃ limit position, Exceeds maxDepth tokens shape limit ∧
      parse text label mode = .error ⟨.tooDeep limit, position⟩ := by
  obtain ⟨end_, cursor, reads⟩ := reads_of_tokenize ht
  obtain ⟨token, between, hn⟩ := reads.exists_next (by simp)
  have starts : (Parser.begun mode token between).Starts text label := ⟨hn, rfl⟩
  have ends := Kind.power?_of_endOfText end_
  have passes : Passes .formula maxDepth tokens shape (.begun mode token between) [last] :=
    passes_of_derives hd rfl (starts.ahead reads (by simp)) fun _ => by rw [ends]; nofun
  rw [parse, parseLogged_of_next hn]
  rcases passes with ⟨tree, after, hshape, -, -, ahead, heq⟩ | ⟨limit, position, after, exceeds, heq⟩
  · have current := ahead.current_eq
    rw [Category.onwards_of_ends _ tree (by rw [current]; exact ends)] at heq
    have heq : formula (.begun mode token between) = (.ok tree, after) := heq
    simp only [heq, current, end_, ↓reduceIte]
    exact Or.inl ⟨tree, rfl, hshape⟩
  · have heq : formula (.begun mode token between) = (.error ⟨.tooDeep limit, position⟩, after) := heq
    simp only [heq]
    exact Or.inr ⟨limit, position, exceeds, rfl⟩

theorem within_of_parse {tree : Tree} (h : parse text label mode = .ok tree) (hshape : tree.shape = shape) :
    Shallow maxDepth tokens ∧ shape.levels ≤ maxHeight := by
  obtain ⟨end_, cursor, reads⟩ := reads_of_tokenize ht
  have ends := Kind.power?_of_endOfText end_
  obtain ⟨tokens', stop, cursor', reads', ends', -, hd', shallow, low⟩ := derives_of_parse h
  have length := Nat.le_antisymm (hd'.length_le reads' ends' hd reads) (hd.length_le reads ends hd' reads')
  obtain ⟨_, front, -⟩ := reads.split
  obtain ⟨_, front', -⟩ := reads'.split
  -- Both are formulas at the front of the text that stop where no operator follows, so they are one.
  obtain rfl : tokens = tokens' := by
    rcases front.isPrefix_or_isPrefix front' with hp | hp
    · exact hp.eq_of_length length
    · exact (hp.eq_of_length length.symm).symm
  exact ⟨shallow, hshape ▸ low⟩

theorem parse_of_formula_iff (mode : Mode) : Shallow maxDepth tokens ∧ shape.levels ≤ maxHeight ↔
    ∃ tree, parse text label mode = .ok tree ∧ tree.shape = shape := by
  constructor
  · rintro ⟨shallow, low⟩
    rcases parse_of_formula ht hd mode with ok | ⟨limit, position, exceeds, -⟩
    · exact ok
    · cases exceeds with
      | depth h => exact absurd shallow h
      | height h => exact absurd low (Nat.not_le_of_lt h)
  · rintro ⟨tree, h, hshape⟩
    exact within_of_parse ht hd h hshape

/-- Beyond the limits there is an error about one of those that the formula is beyond. -/
theorem exceeds_of_formula (mode : Mode) (beyond : ¬(Shallow maxDepth tokens ∧ shape.levels ≤ maxHeight)) :
    ∃ limit position, Exceeds maxDepth tokens shape limit ∧
      parse text label mode = .error ⟨.tooDeep limit, position⟩ :=
  (parse_of_formula ht hd mode).resolve_left (mt (parse_of_formula_iff ht hd mode).mpr beyond)

end

/-- The errors about limits are exact: they are where the limits are met, and among the texts that are formulas
    exactly those beyond a limit have one, which is about a limit that they are beyond. -/
theorem limits_are_exact (text : List Char) (label : String) (mode : Mode) :
    (∀ limit position, parse text label mode = .error ⟨.tooDeep limit, position⟩ →
      (limit = maxDepth ∧ ∃ before opening, TooManyGroups text label position before opening) ∨
        (limit = maxHeight ∧ ∃ waiting left operator right,
          TooHigh text label mode position waiting left operator right)) ∧
    ∀ tokens last shape, tokenize text label = .ok (tokens ++ [last]) → Derives .formula tokens shape →
      (Shallow maxDepth tokens → shape.levels ≤ maxHeight →
        ∃ tree, parse text label mode = .ok tree ∧ tree.shape = shape) ∧
      (¬Shallow maxDepth tokens → shape.levels ≤ maxHeight →
        ∃ position, parse text label mode = .error ⟨.tooDeep maxDepth, position⟩) ∧
      (Shallow maxDepth tokens → maxHeight < shape.levels →
        ∃ position, parse text label mode = .error ⟨.tooDeep maxHeight, position⟩) ∧
      (¬Shallow maxDepth tokens → maxHeight < shape.levels →
        ∃ limit position, (limit = maxDepth ∨ limit = maxHeight) ∧
          parse text label mode = .error ⟨.tooDeep limit, position⟩) := by
  refine ⟨fun _ _ => exceeded_of_parse, fun tokens last shape ht hd => ⟨fun shallow low => ?_, fun deep low => ?_,
    fun shallow high => ?_, fun deep high => ?_⟩⟩
  · exact (parse_of_formula_iff ht hd mode).mp ⟨shallow, low⟩
  · obtain ⟨limit, position, exceeds, h⟩ := exceeds_of_formula ht hd mode fun within => deep within.1
    cases exceeds with
    | depth => exact ⟨position, h⟩
    | height high => exact absurd low (Nat.not_le_of_lt high)
  · obtain ⟨limit, position, exceeds, h⟩ := exceeds_of_formula ht hd mode fun within => Nat.not_le_of_lt high within.2
    cases exceeds with
    | depth deep => exact absurd shallow deep
    | height => exact ⟨position, h⟩
  · obtain ⟨limit, position, exceeds, h⟩ := exceeds_of_formula ht hd mode fun within => deep within.1
    cases exceeds with
    | depth => exact ⟨_, position, Or.inl rfl, h⟩
    | height => exact ⟨_, position, Or.inr rfl, h⟩

set_option maxRecDepth 4000 in
theorem limits_are_exact_at_parenthesis : ∃ before opening,
    TooManyGroups (List.replicate 65 '(') "s" ⟨64, "s"⟩ before opening := by
  have met : parse (List.replicate 65 '(') "s" .strict = .error ⟨.tooDeep maxDepth, ⟨64, "s"⟩⟩ := by cbv
  rcases (limits_are_exact (List.replicate 65 '(') "s" .strict).1 _ _ met with ⟨-, h⟩ | ⟨h, -⟩
  · exact h
  · cases h

end Polish
