import Polish.Proofs.Grammar

/-! What may come next. Tokens from which a formula can still be made are called viable. Whether they are
    is seen token by token: it takes the number of groups that stand open and what is due, an operand or
    an operator. -/

namespace Polish

/-! ### Progress -/

/-- What tokens still lack: an operand, or nothing but an operator to go on with. -/
inductive Due
  | operand
  | operator
  deriving DecidableEq

/-- How far tokens have come on the way to a formula. -/
structure Progress where
  groups : Nat
  due : Due
  deriving DecidableEq

namespace Progress

/-- No token has come. -/
def start : Progress :=
  ⟨0, .operand⟩

/-- What one more token makes of the progress, for each token that fits. -/
inductive Step : Progress → Token → Progress → Prop
  | integer {groups : Nat} {token : Token} {value : Int64} : token.kind = .integer → token.literal = .integer value →
      Step ⟨groups, .operand⟩ token ⟨groups, .operator⟩
  | opening {groups : Nat} {token : Token} : token.kind = .openParen →
      Step ⟨groups, .operand⟩ token ⟨groups + 1, .operand⟩
  | operator {groups : Nat} {token : Token} : token.kind.power?.isSome →
      Step ⟨groups, .operator⟩ token ⟨groups, .operand⟩
  | closing {groups : Nat} {token : Token} : token.kind = .closeParen →
      Step ⟨groups + 1, .operator⟩ token ⟨groups, .operator⟩

/-- What tokens make of the progress, one after another. -/
inductive Steps : Progress → List Token → Progress → Prop
  | refl {progress : Progress} : Steps progress [] progress
  | cons {progress between after : Progress} {token : Token} {tokens : List Token} : Step progress token between →
      Steps between tokens after → Steps progress (token :: tokens) after

variable {progress between after after' : Progress} {token : Token} {tokens more : List Token}

theorem Step.unique (h : Step progress token after) (h' : Step progress token after') : after = after' := by
  cases h <;> cases h' <;> simp_all [Kind.power?]

namespace Steps

theorem append (h : Steps progress tokens between) (h' : Steps between more after) :
    Steps progress (tokens ++ more) after := by
  induction h with
  | refl => exact h'
  | cons hs _ ih => exact .cons hs (ih h')

theorem concat (h : Steps progress tokens between) (hs : Step between token after) :
    Steps progress (tokens ++ [token]) after :=
  h.append (.cons hs .refl)

theorem split (h : Steps progress (tokens ++ more) after) :
    ∃ between, Steps progress tokens between ∧ Steps between more after := by
  induction tokens generalizing progress with
  | nil => exact ⟨progress, .refl, h⟩
  | cons token tokens ih =>
    cases h with
    | cons hs h =>
      obtain ⟨between, h1, h2⟩ := ih h
      exact ⟨between, .cons hs h1, h2⟩

theorem unique (h : Steps progress tokens after) (h' : Steps progress tokens after') : after = after' := by
  induction h with
  | refl =>
    cases h'
    rfl
  | cons hs _ ih =>
    cases h' with
    | cons hs' h' => exact ih (hs.unique hs' ▸ h')

theorem opens_eq (h : Steps progress tokens after) :
    opens tokens + progress.groups = closes tokens + after.groups := by
  induction h with
  | refl => rfl
  | cons hs _ ih =>
    rw [opens_cons, closes_cons]
    cases hs with
    | integer hk _ => simp only [hk, reduceCtorEq, ↓reduceIte] at ih ⊢; omega
    | opening hk => simp only [hk, reduceCtorEq, ↓reduceIte] at ih ⊢; omega
    | operator hk =>
      obtain ⟨-, -, h1, h2⟩ := Kind.of_isSome_power? hk
      simp only [h1, h2, ↓reduceIte] at ih ⊢
      omega
    | closing hk => simp only [hk, reduceCtorEq, ↓reduceIte] at ih ⊢; omega

theorem kind_ne (h : Steps progress tokens after) : ∀ token ∈ tokens, token.kind ≠ .endOfText := by
  induction h with
  | refl => exact nofun
  | cons hs _ ih =>
    refine List.forall_mem_cons.mpr ⟨?_, ih⟩
    cases hs with
    | integer hk _ | opening hk | closing hk => rw [hk]; nofun
    | operator hk => exact (Kind.of_isSome_power? hk).1

theorem close_all (closing : Token) (hc : closing.kind = .closeParen) (groups : Nat) :
    Steps ⟨groups, .operator⟩ (List.replicate groups closing) ⟨0, .operator⟩ := by
  induction groups with
  | zero => exact .refl
  | succ groups ih => exact .cons (.closing hc) ih

end Steps

end Progress

/-! ### From a derivation to progress -/

namespace Derives
variable {category : Category} {tokens : List Token} {shape : Shape}

/-- A complete derivation stands for one operand. -/
theorem steps (h : Derives category tokens shape) (groups : Nat) :
    Progress.Steps ⟨groups, .operand⟩ tokens ⟨groups, .operator⟩ := by
  induction h generalizing groups with
  | integer hk hl => exact .cons (.integer hk hl) .refl
  | group ho _ hc ih => exact (Progress.Steps.cons (.opening ho) (ih (groups + 1))).concat (.closing hc)
  | factor _ ih | term _ ih => exact ih groups
  | product _ hk _ ihl ihr | sum _ hk _ ihl ihr =>
    refine (ihl groups).append (.cons (.operator ?_) (ihr groups))
    rcases hk with hk | hk <;> rw [hk] <;> rfl

theorem not_steps (h : Derives category tokens shape) {groups : Nat} {after : Progress} :
    ¬Progress.Steps ⟨groups, .operator⟩ tokens after := by
  induction h generalizing after with
  | integer hk _ =>
    rintro (_ | ⟨hs, _⟩)
    cases hs with
    | operator hp => rw [hk] at hp; cases hp
    | closing hc => rw [hk] at hc; cases hc
  | group ho _ _ _ =>
    rintro (_ | ⟨hs, _⟩)
    cases hs with
    | operator hp => rw [ho] at hp; cases hp
    | closing hc => rw [ho] at hc; cases hc
  | factor _ ih | term _ ih => exact ih
  | product _ _ _ ih _ | sum _ _ _ ih _ =>
    intro h
    obtain ⟨between, h1, -⟩ := h.split
    exact ih h1

theorem even (h : Derives category tokens shape) : opens tokens = closes tokens :=
  (h.steps 0).opens_eq

end Derives

/-! ### From progress to a derivation -/

/-- What stands before an operand in its group. -/
inductive Lead : List Token → Prop
  | first : Lead []
  | behind {tokens : List Token} {shape : Shape} {operator : Token} : Derives .formula tokens shape →
      operator.kind.power?.isSome → Lead (tokens ++ [operator])

/-- What stands before the innermost of so many groups, with its parenthesis. -/
inductive Inside : Nat → List Token → Prop
  | outside : Inside 0 []
  | group {groups : Nat} {outer lead : List Token} {opening : Token} : Inside groups outer → Lead lead →
      opening.kind = .openParen → Inside (groups + 1) (outer ++ lead ++ [opening])

/-- The tokens are made up as the progress says. -/
inductive Made : Progress → List Token → Prop
  | operand {groups : Nat} {outer lead : List Token} : Inside groups outer → Lead lead →
      Made ⟨groups, .operand⟩ (outer ++ lead)
  | operator {groups : Nat} {outer tokens : List Token} {shape : Shape} : Inside groups outer →
      Derives .formula tokens shape → Made ⟨groups, .operator⟩ (outer ++ tokens)

theorem Lead.operand {lead tokens : List Token} {shape : Shape} (hl : Lead lead) (h : Derives .factor tokens shape) :
    ∃ shape, Derives .formula (lead ++ tokens) shape := by
  cases hl with
  | first => exact ⟨shape, .term (.factor h)⟩
  | behind hf hp =>
    rw [List.append_assoc, List.singleton_append]
    exact hf.extend hp h

namespace Made
variable {progress after : Progress} {token : Token} {tokens more : List Token}

theorem step (h : Made progress tokens) (hs : Progress.Step progress token after) :
    Made after (tokens ++ [token]) := by
  cases h with
  | @operand groups outer lead ho hl =>
    cases hs with
    | integer hk hv =>
      obtain ⟨shape, hd⟩ := hl.operand (.integer hk hv)
      rw [List.append_assoc]
      exact .operator ho hd
    | opening hk =>
      rw [← List.append_nil (outer ++ lead ++ [token])]
      exact .operand (.group ho hl hk) .first
  | operator ho hd =>
    cases hs with
    | operator hp =>
      rw [List.append_assoc]
      exact .operand ho (.behind hd hp)
    | closing hk =>
      -- The group that ends here is an operand of the one around it.
      cases ho with
      | group ho hl hopen =>
        obtain ⟨shape, hd⟩ := hl.operand (.group hopen hd hk)
        have parts := Made.operator ho hd
        simpa only [List.append_assoc, List.cons_append, List.nil_append] using parts

theorem steps (h : Made progress tokens) (hs : Progress.Steps progress more after) : Made after (tokens ++ more) := by
  induction hs generalizing tokens with
  | refl => rwa [List.append_nil]
  | @cons _ _ _ token more hs _ ih =>
    rw [← List.singleton_append, ← List.append_assoc]
    exact ih (h.step hs)

theorem of_steps (h : Progress.Steps .start tokens progress) : Made progress tokens :=
  (Made.operand .outside .first).steps h

end Made

/-- Exactly a formula takes the progress from the start to where nothing is open and no operand is due. -/
theorem steps_start_iff {tokens : List Token} :
    Progress.Steps .start tokens ⟨0, .operator⟩ ↔ ∃ shape, Derives .formula tokens shape := by
  constructor
  · intro h
    cases Made.of_steps h with
    | operator ho hd =>
      cases ho
      exact ⟨_, hd⟩
  · intro h
    obtain ⟨shape, h⟩ := h
    exact h.steps 0

/-! ### Viable tokens -/

/-- Some continuation of the tokens is a formula with the closing token behind it. -/
def Viable (tokens : List Token) : Prop :=
  ∃ more formula last shape, tokens ++ more = formula ++ [last] ∧ last.kind = .endOfText ∧
    Derives .formula formula shape

/-- With some token of the kind behind them the tokens are viable. -/
def MayFollow (tokens : List Token) (kind : Kind) : Prop :=
  ∃ token : Token, token.kind = kind ∧ Viable (tokens ++ [token])

/-- The tokens end with an operand that is complete. -/
def EndsInOperand (tokens : List Token) : Prop :=
  ∃ front operand shape, tokens = front ++ operand ∧ Derives .factor operand shape

section
variable {progress : Progress} {tokens : List Token} {token : Token} {kind : Kind}

theorem viable_of_steps (h : Progress.Steps .start tokens progress) : Viable tokens := by
  obtain ⟨groups, due⟩ := progress
  let place : Span := ⟨.null, .null⟩
  have closed := Progress.Steps.close_all ⟨.closeParen, .none, place⟩ rfl groups
  cases due with
  | operator =>
    obtain ⟨shape, hd⟩ := steps_start_iff.mp (h.append closed)
    exact ⟨_ ++ [⟨.endOfText, .none, place⟩], _, _, shape, (List.append_assoc _ _ _).symm, rfl, hd⟩
  | operand =>
    have operand : Progress.Step ⟨groups, .operand⟩ ⟨.integer, .integer 0, place⟩ ⟨groups, .operator⟩ :=
      .integer rfl rfl
    obtain ⟨shape, hd⟩ := steps_start_iff.mp (h.append (.cons operand closed))
    exact ⟨_ ++ [⟨.endOfText, .none, place⟩], _, _, shape, (List.append_assoc _ _ _).symm, rfl, hd⟩

theorem viable_iff :
    Viable tokens ↔ (∃ progress, Progress.Steps .start tokens progress) ∨
      ∃ formula last shape, tokens = formula ++ [last] ∧ last.kind = .endOfText ∧ Derives .formula formula shape := by
  constructor
  · intro h
    obtain ⟨more, formula, last, shape, h, hl, hd⟩ := h
    rcases more.eq_nil_or_concat with rfl | ⟨more, last', rfl⟩
    · rw [List.append_nil] at h
      exact Or.inr ⟨formula, last, shape, h, hl, hd⟩
    · rw [List.concat_eq_append, ← List.append_assoc] at h
      obtain ⟨rfl, -⟩ := List.append_inj' h rfl
      obtain ⟨between, h1, -⟩ := (hd.steps 0).split
      exact Or.inl ⟨between, h1⟩
  · intro h
    rcases h with ⟨progress, h⟩ | ⟨formula, last, shape, rfl, hl, hd⟩
    · exact viable_of_steps h
    · exact ⟨[], formula, last, shape, List.append_nil _, hl, hd⟩

theorem viable_concat_iff (h : Progress.Steps .start tokens progress) :
    Viable (tokens ++ [token]) ↔
      (∃ after, Progress.Step progress token after) ∨ token.kind = .endOfText ∧ progress = ⟨0, .operator⟩ := by
  rw [viable_iff]
  constructor
  · rintro (⟨after, h'⟩ | ⟨formula, last, shape, heq, hl, hd⟩)
    · obtain ⟨between, h1, h2⟩ := h'.split
      cases h.unique h1
      cases h2 with
      | cons hs _ => exact Or.inl ⟨_, hs⟩
    · obtain ⟨rfl, hlast⟩ := List.append_inj' heq rfl
      cases hlast
      exact Or.inr ⟨hl, h.unique (hd.steps 0)⟩
  · rintro (⟨after, hs⟩ | ⟨hk, rfl⟩)
    · exact Or.inl ⟨after, h.concat hs⟩
    · obtain ⟨shape, hd⟩ := steps_start_iff.mp h
      exact Or.inr ⟨tokens, token, shape, rfl, hk, hd⟩

theorem mayFollow_iff_of_steps (h : Progress.Steps .start tokens progress) :
    (∀ kind, MayFollow tokens kind ↔ kind = .integer ∨ kind = .openParen) ↔ progress.due = .operand := by
  let place : Span := ⟨.null, .null⟩
  obtain ⟨groups, due⟩ := progress
  constructor
  · intro hm
    cases due with
    | operand => rfl
    | operator =>
      have more : MayFollow tokens .plus :=
        ⟨⟨.plus, .none, place⟩, rfl, (viable_concat_iff h).mpr (Or.inl ⟨_, .operator rfl⟩)⟩
      rcases (hm .plus).mp more with hk | hk <;> cases hk
  · rintro ⟨⟩ kind
    constructor
    · rintro ⟨token, rfl, hv⟩
      rcases (viable_concat_iff h).mp hv with ⟨_, hs⟩ | ⟨-, hp⟩
      · cases hs with
        | integer hk _ => exact Or.inl hk
        | opening hk => exact Or.inr hk
      · cases hp
    · rintro (rfl | rfl)
      · exact ⟨⟨.integer, .integer 0, place⟩, rfl, (viable_concat_iff h).mpr (Or.inl ⟨_, .integer rfl rfl⟩)⟩
      · exact ⟨⟨.openParen, .none, place⟩, rfl, (viable_concat_iff h).mpr (Or.inl ⟨_, .opening rfl⟩)⟩

theorem endsInOperand_iff_of_steps (h : Progress.Steps .start tokens progress) :
    EndsInOperand tokens ↔ progress.due = .operator := by
  constructor
  · rintro ⟨front, operand, shape, rfl, hd⟩
    obtain ⟨⟨groups, due⟩, -, h2⟩ := h.split
    cases due with
    | operand => rw [h2.unique (hd.steps groups)]
    | operator => exact absurd h2 hd.not_steps
  · intro hdue
    cases Made.of_steps h with
    | operand _ _ => cases hdue
    | @operator _ outer _ _ _ hd =>
      obtain ⟨front, operand, shape, rfl, hf⟩ := hd.ends_in_factor
      exact ⟨outer ++ front, operand, shape, (List.append_assoc _ _ _).symm, hf⟩

end

end Polish
