import Polish.Proofs.Rules

/-! The operations that are put together. Each is recorded when it has both its operands, so when a tree is
    finished its operations are recorded from the inside out. When a limit is met there are trees in front of the
    place, each with an operator that waits for its right operand, and all that is recorded are the operations of
    these and of what was put together there. -/

namespace Polish
open ParseM

/-! ### Records -/

namespace Event

/-- The operators that a log says got both their operands. -/
def foldedIn (log : Array Event) : List (Kind × Power) :=
  log.toList.filterMap fun
    | .folding operator power => some (operator, power)
    | _ => none

theorem foldedIn_append (log more : Array Event) : foldedIn (log ++ more) = foldedIn log ++ foldedIn more := by
  rw [foldedIn, Array.toList_append, List.filterMap_append]
  rfl

theorem foldedIn_push (log : Array Event) (event : Event) :
    foldedIn (log.push event) = foldedIn log ++ foldedIn #[event] := by
  rw [Array.push_eq_append, foldedIn_append]

theorem foldedIn_ofRead (token : Token) : foldedIn (ofRead token) = [] := by
  unfold ofRead
  split <;> rfl

end Event

open Event

theorem Parser.foldedIn_consume (parser : Parser) (next : Token) (cursor : Cursor) :
    foldedIn (parser.consume next cursor).log = foldedIn parser.log := by
  have ate : foldedIn #[.ate parser.current] = [] := rfl
  rw [consume, foldedIn_push, foldedIn_append, foldedIn_ofRead, ate, List.append_nil, List.append_nil]

namespace Tree

/-- The operations of a tree in the order in which they are put together, each behind those of its operands. -/
def operations : Tree → List Tree
  | literal _ _ => []
  | operation left operator right height span =>
    left.operations ++ right.operations ++ [operation left operator right height span]

/-- What is recorded of an operation. -/
def folding? : Tree → Option (Kind × Power)
  | literal _ _ => none
  | operation _ operator _ _ _ => operator.kind.power?.map (operator.kind, ·)

/-- What is recorded of all the operations of a tree, those of operands before their own. -/
def foldings (tree : Tree) : List (Kind × Power) :=
  tree.operations.filterMap folding?

theorem foldings_combine {left right : Tree} {operator : Token} {power : Power}
    (hp : operator.kind.power? = some power) :
    (left.combine operator right).foldings = left.foldings ++ right.foldings ++ [(operator.kind, power)] := by
  simp [foldings, combine, operations, folding?, hp]

theorem operations_combine (left : Tree) (operator : Token) (right : Tree) :
    (left.combine operator right).operations =
      left.operations ++ right.operations ++ [left.combine operator right] := rfl

/-- No operation of a tree is higher than the tree. -/
theorem Formed.height_le {tree node : Tree} (h : tree.Formed) (mem : node ∈ tree.operations) :
    node.height ≤ tree.height := by
  induction h with
  | literal => cases mem
  | @combine left right operator _ _ ihl ihr =>
    simp only [operations_combine, List.mem_append, List.mem_singleton] at mem
    rw [height_combine]
    rcases mem with (mem | mem) | rfl
    · have := ihl mem
      omega
    · have := ihr mem
      omega
    · exact Nat.le_refl _

end Tree

/-! ### Success -/

/-- The parser has read a tree and recorded its operations. -/
structure Built (category : Category) (parser : Parser) (tokens : List Token) (tree : Tree) (after : Parser) : Prop
    extends Parsed category parser tokens tree after where
  folded : foldedIn after.log = foldedIn parser.log ++ tree.foldings

/-- What is recorded when an operation has both its operands, whether or not it is too high. -/
theorem folded_operation {power : Power} {parser here after : Parser} {tokens : List Token} {left right : Tree}
    {next : Token} {cursor : Cursor} (h : Built power.category parser tokens left here)
    (hp : here.current.kind.power? = some power)
    (hr : foldedIn after.log = foldedIn (here.consume next cursor).log ++ right.foldings) :
    foldedIn (after.log.push (.folding here.current.kind power)) =
      foldedIn parser.log ++ (left.combine here.current right).foldings := by
  rw [foldedIn_push, hr, here.foldedIn_consume, h.folded, Tree.foldings_combine hp, List.append_assoc,
    List.append_assoc, List.append_assoc]
  rfl

theorem Succeeds.built {category : Category} {parser after : Parser} {tokens : List Token} {tree : Tree}
    (h : Succeeds category parser tokens tree after) : Built category parser tokens tree after := by
  refine ⟨h.parsed, ?_⟩
  induction h with
  | @integer parser =>
    rw [parser.foldedIn_consume]
    exact (List.append_nil _).symm
  | @group _ _ here _ _ _ _ opens _ _ _ ih =>
    rw [Parser.leave, here.foldedIn_consume, ih]
    cases opens with
    | intro => rw [Parser.foldedIn_consume, Parser.enter]
  | first _ ih => exact ih
  | operation h hp _ _ _ ihl ihr => exact folded_operation ⟨h.parsed, ihl⟩ hp ihr

/-! ### Limits -/

/-- The kind of token behind which one of the category begins that is a part of no longer one. -/
def Category.Follows : Category → Kind → Prop
  | .formula, kind => kind = .openParen
  | .term, kind => kind = .openParen ∨ kind.power? = some .additive
  | .factor, _ => True

theorem Power.follows_operand {power : Power} {kind : Kind} (h : power.category.Follows kind) :
    power.operand.Follows kind := by
  cases power with
  | additive => exact Or.inl h
  | multiplicative => trivial

theorem Power.follows_of_power? {power : Power} {kind : Kind} (h : kind.power? = some power) :
    power.operand.Follows kind := by
  cases power with
  | additive => exact Or.inr h
  | multiplicative => trivial

/-- The kind of the last token, or the one given if there is none. -/
def lastKind (kind : Kind) (tokens : List Token) : Kind :=
  tokens.foldl (fun _ token => token.kind) kind

theorem lastKind_append (kind : Kind) (ts us : List Token) :
    lastKind kind (ts ++ us) = lastKind (lastKind kind ts) us :=
  List.foldl_append

/-- The parser, which began one category, has come to where it begins another. The trees in front are finished, and
    the operator behind each of them waits for its right operand. -/
structure Awaits (outer : Category) (parser : Parser) (front : List Token) (waiting : List (Tree × Token))
    (inner : Category) (here : Parser) : Prop where
  run : parser.Run front here
  follows : ∀ kind, outer.Follows kind → inner.Follows (lastKind kind front)
  depth : here.depth + closes front = parser.depth + opens front
  shallow : Shallow (maxDepth - parser.depth) front
  words : ungrouped front = waiting.flatMap fun entry => entry.1.words ++ [entry.2]
  low : ∀ entry ∈ waiting, entry.1.Formed ∧ entry.1.height ≤ maxHeight
  folded : foldedIn here.log = foldedIn parser.log ++ waiting.flatMap (·.1.foldings)

namespace Awaits
variable {outer category inner : Category} {power : Power} {parser between here : Parser} {front more : List Token}
  {waiting waiting' : List (Tree × Token)}

theorem at_once (follows : ∀ kind, outer.Follows kind → inner.Follows kind) :
    Awaits outer parser [] [] inner parser :=
  ⟨.refl, follows, rfl, Nested.of_countP_le (Nat.zero_le _), rfl, nofun, (List.append_nil _).symm⟩

theorem trans (h : Awaits outer parser front waiting category between)
    (h' : Awaits category between more waiting' inner here) (bound : parser.depth ≤ maxDepth) :
    Awaits outer parser (front ++ more) (waiting ++ waiting') inner here := by
  have depth := h.depth
  have depth' := h'.depth
  refine ⟨h.run.trans h'.run, fun kind hk => ?_, ?_, fun part hp => ?_, ?_,
    List.forall_mem_append.mpr ⟨h.low, h'.low⟩, ?_⟩
  · rw [lastKind_append]
    exact h'.follows _ (h.follows kind hk)
  · rw [opens_append, closes_append]
    omega
  · rcases isPrefix_append_iff.mp hp with hp | ⟨inner, rfl, hi⟩
    · exact h.shallow part hp
    · -- A beginning that goes beyond the first part has all the groups around it that are open behind that part.
      have outer := h.shallow front (List.prefix_refl _)
      have within := h'.shallow inner hi
      rw [opens_append, closes_append]
      omega
  · rw [ungrouped_append, h.words, h'.words, List.flatMap_append]
  · rw [h'.folded, h.folded, List.append_assoc, List.flatMap_append]

end Awaits

/-- A parser that has come this far puts the tree and the operator behind it aside for the right operand. -/
theorem Built.awaits {power : Power} {parser here : Parser} {tokens : List Token} {tree : Tree} {next : Token}
    {cursor : Cursor} (h : Built power.category parser tokens tree here)
    (hp : here.current.kind.power? = some power) (hn : here.cursor.next = (.ok next, cursor)) :
    Awaits power.category parser (tokens ++ [here.current]) [(tree, here.current)] power.operand
      (here.consume next cursor) := by
  obtain ⟨-, -, ho, hc⟩ := Kind.of_isSome_power? (Option.isSome_of_eq_some hp)
  have even := h.derives.even
  have depth : (here.consume next cursor).depth = parser.depth := h.depth
  refine ⟨h.run.eat hn, fun kind _ => ?_, ?_, ?_, ?_, List.forall_mem_singleton.mpr ⟨h.formed, h.low⟩, ?_⟩
  · rw [lastKind_append]
    exact Power.follows_of_power? hp
  · simp [depth, even, ho, hc]
  · exact (Shallow.append_iff even).mpr ⟨h.shallow, .singleton ho⟩
  · rw [ungrouped_append, ← h.words, ungrouped_cons_of_ne ho hc, List.flatMap_singleton]
    rfl
  · rw [here.foldedIn_consume, h.folded, List.flatMap_singleton]

/-- Inside a group that has been opened nothing waits but what waits outside. -/
theorem Parser.Opens.awaits {parser inner : Parser} (h : parser.Opens inner) :
    Awaits .factor parser [parser.current] [] .formula inner := by
  have run := h.run
  obtain ⟨hk, lt, _⟩ := h
  refine ⟨run, fun _ _ => hk, ?_, ?_, ?_, nofun, ?_⟩
  · simp [hk, consume, enter]
  · exact Nested.of_countP_le (by simp [hk]; omega)
  · simp [ungrouped, hk]
  · rw [foldedIn_consume]
    exact (List.append_nil _).symm

/-- A limit is met at this position. -/
inductive Beyond (category : Category) (parser : Parser) : Nat → Position → Parser → Prop
  | depth {front : List Token} {waiting : List (Tree × Token)} {here : Parser} :
      Awaits category parser front waiting .factor here → here.current.kind = .openParen → here.depth = maxDepth →
      Beyond category parser maxDepth here.current.span.start here
  | height {front lefts rights : List Token} {waiting : List (Tree × Token)} {between here after : Parser}
      {power : Power} {left right : Tree} {next : Token} {cursor : Cursor} :
      Awaits category parser front waiting power.category between → Built power.category between lefts left here →
      here.current.kind.power? = some power → here.cursor.next = (.ok next, cursor) →
      Built power.operand (here.consume next cursor) rights right after → power.operand.Ends after.current.kind →
      maxHeight < (left.combine here.current right).height →
      Beyond category parser maxHeight here.current.span.start
        { after with log := after.log.push (.folding here.current.kind power) }

theorem Beyond.prepend {outer inner : Category} {parser between after : Parser} {limit : Nat} {position : Position}
    {front : List Token} {waiting : List (Tree × Token)} (h : Beyond inner between limit position after)
    (awaits : Awaits outer parser front waiting inner between) (bound : parser.depth ≤ maxDepth) :
    Beyond outer parser limit position after := by
  cases h with
  | depth h hk hd => exact .depth (awaits.trans h bound) hk hd
  | height h hl hp hn hr ends high => exact .height (awaits.trans h bound) hl hp hn hr ends high

/-! ### Each rule records what it puts together -/

/-- What a rule records: the operations of its tree, or it meets a limit. Nothing is said of what it records before
    another error. -/
inductive Traced (category : Category) (parser : Parser) : Except Error Tree × Parser → Prop
  | built {tree : Tree} {after : Parser} : foldedIn after.log = foldedIn parser.log ++ tree.foldings →
      Traced category parser (.ok tree, after)
  | beyond {limit : Nat} {position : Position} {after : Parser} : Beyond category parser limit position after →
      Traced category parser (.error ⟨.tooDeep limit, position⟩, after)
  | other {error : Error} {after : Parser} : (∀ limit, error.fault ≠ .tooDeep limit) →
      Traced category parser (.error error, after)

namespace Traced
variable {category outer inner : Category} {parser between after : Parser} {error : Error} {cursor cursor' : Cursor}
  {front : List Token} {waiting : List (Tree × Token)}

theorem misread (h : cursor.next = (.error error, cursor')) : Traced category parser (.error error, after) := by
  refine .other fun limit hf => ?_
  have lexical := (Cursor.of_next_eq_error h).2.2
  rw [hf] at lexical
  exact lexical

theorem refused (here : Parser) (expected : String) :
    Traced category parser (.error (here.unexpected expected), after) :=
  .other fun _ => Fault.noConfusion

theorem prepend (h : Traced inner between (.error error, after))
    (awaits : Awaits outer parser front waiting inner between) (bound : parser.depth ≤ maxDepth) :
    Traced outer parser (.error error, after) := by
  cases h with
  | beyond h => exact .beyond (h.prepend awaits bound)
  | other h => exact .other h

end Traced

/-- A rule that breaks off has come to a limit, or its error is about another thing. -/
theorem BreaksOff.traced {category : Category} {parser after : Parser} {error : Error}
    (h : BreaksOff category parser error after) (bound : parser.depth ≤ maxDepth) :
    Traced category parser (.error error, after) := by
  induction h with
  | integer _ _ hn | opening _ _ hn | closing _ _ _ hn | operator _ _ hn => exact .misread hn
  | operand | unclosed => exact .refused _ _
  | full hk deep => exact .beyond (.depth (.at_once fun _ => id) hk (Nat.le_antisymm bound deep))
  | within opens _ ih => exact (ih opens.depth_le).prepend opens.awaits bound
  | first _ ih => exact (ih bound).prepend (.at_once fun _ => Power.follows_operand) bound
  | further h hp hn _ ih =>
    have depth : _ ≤ maxDepth := Nat.le_trans (Nat.le_of_eq h.depth_eq) bound
    exact (ih depth).prepend (h.built.awaits hp hn) bound
  | height h hp hn hr ends high => exact .beyond (.height (.at_once fun _ => id) h.built hp hn hr.built ends high)

/-- A computation records what it puts together where the depth is as given. -/
def Traces (category : Category) (depth : Nat) (action : ParseM Tree) : Prop :=
  ∀ parser : Parser, parser.depth = depth → parser.current.Coherent → Traced category parser (action parser)

theorem traces_rule (category : Category) {depth : Nat} (bound : depth ≤ maxDepth) :
    Traces category depth (category.rule (maxDepth - depth)) := by
  rintro parser rfl coherent
  have settled := settled_rule category coherent
  generalize category.rule (maxDepth - parser.depth) parser = result at settled
  cases settled with
  | succeeds h _ => exact .built h.built.folded
  | breaksOff h => exact h.traced bound

/-- The rules record the operations of what they read, and meet a limit only where there is one. -/
theorem traced_rule {parser : Parser} (category : Category) (bound : parser.depth ≤ maxDepth)
    (coherent : parser.current.Coherent) :
    Traced category parser (category.rule (maxDepth - parser.depth) parser) :=
  traces_rule category bound parser rfl coherent

end Polish
