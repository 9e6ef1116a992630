/-
  DiceMarkup.Proofs.Grammar

  The grammar of infix formulas, and its reader. A derivation of the grammar is
  a tree; the tree gives the words that it derives, how deep they stand, and
  what they come to. Main statement: a list of words has a value if it has a
  derivation within the nesting limit that divides by no zero, and then the
  value is that of the derivation. There is one derivation at most.

    Expr    = Term  (('+' | '-') Term)*
    Term    = Unary (('*' | '/' | '%') Unary)*
    Unary   = ('+' | '-') Unary | Primary
    Primary = Number | '(' Expr ')'

  Pieces:
  * `Expr`, `Term`, `Unary`, `Primary` — derivations, with their words and values
  * `Expr.eq_of_words_eq` — a list of words has one derivation at most
  * `Yields` — what a reader of a part takes and what it leaves
  * `ReadsUnary.product`, `ReadsTerm.sum`, `readsUnary_factor` — the readers follow the grammar
  * `value_eq_ok_iff` — whole formulas
-/
import DiceMarkup.Formula.Infix
import Mathlib

namespace DiceMarkup.Formula.Infix

/-! ## Derivations -/

mutual

/-- A sum: a term, and terms with an operator before each of them. -/
inductive Expr where
  | mk (first : Term) (more : Terms)

inductive Terms where
  | nil
  | cons (operator : Additive) (term : Term) (more : Terms)

/-- A product: an operand, and operands with an operator before each of them. -/
inductive Term where
  | mk (first : Unary) (more : Unaries)

inductive Unaries where
  | nil
  | cons (operator : Multiplicative) (operand : Unary) (more : Unaries)

inductive Unary where
  | signed (sign : Additive) (operand : Unary)
  | primary (inner : Primary)

inductive Primary where
  | number (value : Float)
  | parenthesized (inner : Expr)

end

/-! ### Words -/

mutual

/-- The words that are derived. -/
def Expr.words : Expr → List Token
  | .mk first more => first.words ++ more.words

def Terms.words : Terms → List Token
  | .nil => []
  | .cons operator term more => .additive operator :: (term.words ++ more.words)

def Term.words : Term → List Token
  | .mk first more => first.words ++ more.words

def Unaries.words : Unaries → List Token
  | .nil => []
  | .cons operator operand more => .multiplicative operator :: (operand.words ++ more.words)

def Unary.words : Unary → List Token
  | .signed sign operand => .additive sign :: operand.words
  | .primary inner => inner.words

def Primary.words : Primary → List Token
  | .number value => [.number value]
  | .parenthesized inner => .opening :: (inner.words ++ [.closing])

end

theorem Terms.words_cons_append (operator : Additive) (term : Term) (more : Terms)
    (rest : List Token) : (Terms.cons operator term more).words ++ rest =
      .additive operator :: (term.words ++ (more.words ++ rest)) := by
  rw [Terms.words, List.cons_append, List.append_assoc]

theorem Unaries.words_cons_append (operator : Multiplicative) (operand : Unary) (more : Unaries)
    (rest : List Token) : (Unaries.cons operator operand more).words ++ rest =
      .multiplicative operator :: (operand.words ++ (more.words ++ rest)) := by
  rw [Unaries.words, List.cons_append, List.append_assoc]

theorem Unary.words_parenthesized_append (e : Expr) (rest : List Token) :
    (Unary.primary (.parenthesized e)).words ++ rest =
      .opening :: (e.words ++ .closing :: rest) := by
  simp [Unary.words, Primary.words]

/-! ### Nesting -/

mutual

/-- How many parentheses and operands of signs the innermost word stands in. -/
def Expr.nesting : Expr → Nat
  | .mk first more => max first.nesting more.nesting

def Terms.nesting : Terms → Nat
  | .nil => 0
  | .cons _ term more => max term.nesting more.nesting

def Term.nesting : Term → Nat
  | .mk first more => max first.nesting more.nesting

def Unaries.nesting : Unaries → Nat
  | .nil => 0
  | .cons _ operand more => max operand.nesting more.nesting

def Unary.nesting : Unary → Nat
  | .signed _ operand => operand.nesting + 1
  | .primary inner => inner.nesting

def Primary.nesting : Primary → Nat
  | .number _ => 0
  | .parenthesized inner => inner.nesting + 1

end

/-! ### Values -/

/-- What an operator makes of two numbers. -/
def Additive.value : Additive → Float → Float → Float
  | plus, left, right => left + right
  | minus, left, right => left - right

def Multiplicative.value : Multiplicative → Float → Float → Float
  | times, left, right => left * right
  | divide, left, right => left / right
  | modulo, left, right => Binary.floatRemainder left right

/-- What a sign makes of its operand. -/
def Additive.signed : Additive → Float → Float
  | plus, operand => operand
  | minus, operand => -operand

mutual

/-- What a derivation comes to. -/
def Expr.value : Expr → Float
  | .mk first more => more.valueAfter first.value

/-- The operators are applied from the left, to what came before them. -/
def Terms.valueAfter (left : Float) : Terms → Float
  | .nil => left
  | .cons operator term more => more.valueAfter (operator.value left term.value)

def Term.value : Term → Float
  | .mk first more => more.valueAfter first.value

def Unaries.valueAfter (left : Float) : Unaries → Float
  | .nil => left
  | .cons operator operand more => more.valueAfter (operator.value left operand.value)

def Unary.value : Unary → Float
  | .signed sign operand => sign.signed operand.value
  | .primary inner => inner.value

def Primary.value : Primary → Float
  | .number value => value
  | .parenthesized inner => inner.value

end

/-- The operator can be applied to this number on its right: only a zero has no quotient and no
    remainder. -/
def Multiplicative.admits : Multiplicative → Float → Bool
  | times, _ => true
  | divide, right => !(right == 0)
  | modulo, right => !(right == 0)

mutual

/-- No quotient and no remainder has a zero on its right. -/
def Expr.isDefined : Expr → Bool
  | .mk first more => first.isDefined && more.isDefined

def Terms.isDefined : Terms → Bool
  | .nil => true
  | .cons _ term more => term.isDefined && more.isDefined

def Term.isDefined : Term → Bool
  | .mk first more => first.isDefined && more.isDefined

def Unaries.isDefined : Unaries → Bool
  | .nil => true
  | .cons operator operand more =>
    operand.isDefined && operator.admits operand.value && more.isDefined

def Unary.isDefined : Unary → Bool
  | .signed _ operand => operand.isDefined
  | .primary inner => inner.isDefined

def Primary.isDefined : Primary → Bool
  | .number _ => true
  | .parenthesized inner => inner.isDefined

end

/-! ## One derivation at most -/

/-- No operator of this kind comes first. -/
def Stops {Op : Type} (operator? : Token → Option Op) (rest : List Token) : Prop :=
  ∀ token ∈ rest.head?, operator? token = none

section Stopping

variable {Op : Type} {operator? : Token → Option Op} {rest : List Token}

theorem stops_nil : Stops operator? [] :=
  fun _ h_token => absurd h_token (by simp)

theorem stops_cons_iff {token : Token} :
    Stops operator? (token :: rest) ↔ operator? token = none := by
  simp [Stops]

end Stopping

/-- No operator of either kind comes first, so that a sum cannot go on. -/
def Ends (rest : List Token) : Prop :=
  Stops additive? rest ∧ Stops multiplicative? rest

theorem ends_nil : Ends [] :=
  ⟨stops_nil, stops_nil⟩

theorem ends_closing (rest : List Token) : Ends (.closing :: rest) :=
  ⟨stops_cons_iff.2 rfl, stops_cons_iff.2 rfl⟩

/-- A product ends before each term of the sum that it stands in. -/
theorem stops_terms (more : Terms) {rest : List Token} (h_rest : Stops multiplicative? rest) :
    Stops multiplicative? (more.words ++ rest) := by
  cases more with
  | nil => exact h_rest
  | cons operator term more => exact stops_cons_iff.2 rfl

/-- A sum does not end before one of its terms. -/
theorem not_ends_terms {operator : Additive} {term : Term} {more : Terms} {rest : List Token} :
    ¬ Ends ((Terms.cons operator term more).words ++ rest) := by
  intro h_ends
  rw [Terms.words_cons_append] at h_ends
  exact absurd (stops_cons_iff.1 h_ends.1) (by simp [additive?])

/-- A product does not end before one of its operands. -/
theorem not_stops_unaries {operator : Multiplicative} {operand : Unary} {more : Unaries}
    {rest : List Token} :
    ¬ Stops multiplicative? ((Unaries.cons operator operand more).words ++ rest) := by
  intro h_stops
  rw [Unaries.words_cons_append] at h_stops
  exact absurd (stops_cons_iff.1 h_stops) (by simp [multiplicative?])

mutual

/-- Derivations with the same words, up to what follows them, are the same. -/
theorem Expr.words_cancel : (e e' : Expr) → ∀ rest rest' : List Token, Ends rest → Ends rest' →
    e.words ++ rest = e'.words ++ rest' → e = e' ∧ rest = rest'
  | .mk first more, .mk first' more' => by
    have ih_first := first.words_cancel first'
    have ih_more := more.words_cancel more'
    intro rest rest' h_end h_end' h_words
    simp only [Expr.words, List.append_assoc] at h_words
    obtain ⟨rfl, h_after⟩ :=
      ih_first _ _ (stops_terms more h_end.2) (stops_terms more' h_end'.2) h_words
    obtain ⟨rfl, rfl⟩ := ih_more _ _ h_end h_end' h_after
    exact ⟨rfl, rfl⟩

theorem Terms.words_cancel : (more more' : Terms) → ∀ rest rest' : List Token,
    Ends rest → Ends rest' → more.words ++ rest = more'.words ++ rest' →
      more = more' ∧ rest = rest'
  | .nil, .nil => fun _ _ _ _ h_words => ⟨rfl, h_words⟩
  | .nil, .cons operator term more => by
    intro rest rest' h_end _ h_words
    -- What follows the shorter sum would be the rest of the longer one.
    obtain rfl : rest = (Terms.cons operator term more).words ++ rest' := h_words
    exact absurd h_end not_ends_terms
  | .cons operator term more, .nil => by
    intro rest rest' _ h_end' h_words
    obtain rfl : (Terms.cons operator term more).words ++ rest = rest' := h_words
    exact absurd h_end' not_ends_terms
  | .cons operator term more, .cons operator' term' more' => by
    have ih_term := term.words_cancel term'
    have ih_more := more.words_cancel more'
    intro rest rest' h_end h_end' h_words
    simp only [Terms.words, List.cons_append, List.append_assoc, List.cons.injEq,
      Token.additive.injEq] at h_words
    obtain ⟨rfl, h_after⟩ := h_words
    obtain ⟨rfl, h_last⟩ :=
      ih_term _ _ (stops_terms more h_end.2) (stops_terms more' h_end'.2) h_after
    obtain ⟨rfl, rfl⟩ := ih_more _ _ h_end h_end' h_last
    exact ⟨rfl, rfl⟩

theorem Term.words_cancel : (t t' : Term) → ∀ rest rest' : List Token,
    Stops multiplicative? rest → Stops multiplicative? rest' → t.words ++ rest = t'.words ++ rest' →
      t = t' ∧ rest = rest'
  | .mk first more, .mk first' more' => by
    have ih_first := first.words_cancel first'
    have ih_more := more.words_cancel more'
    intro rest rest' h_mul h_mul' h_words
    simp only [Term.words, List.append_assoc] at h_words
    -- An operand tells by itself where it ends: nothing is asked of what follows it.
    obtain ⟨rfl, h_after⟩ := ih_first _ _ h_words
    obtain ⟨rfl, rfl⟩ := ih_more _ _ h_mul h_mul' h_after
    exact ⟨rfl, rfl⟩

theorem Unaries.words_cancel : (more more' : Unaries) → ∀ rest rest' : List Token,
    Stops multiplicative? rest → Stops multiplicative? rest' →
      more.words ++ rest = more'.words ++ rest' → more = more' ∧ rest = rest'
  | .nil, .nil => fun _ _ _ _ h_words => ⟨rfl, h_words⟩
  | .nil, .cons operator operand more => by
    intro rest rest' h_mul _ h_words
    obtain rfl : rest = (Unaries.cons operator operand more).words ++ rest' := h_words
    exact absurd h_mul not_stops_unaries
  | .cons operator operand more, .nil => by
    intro rest rest' _ h_mul' h_words
    obtain rfl : (Unaries.cons operator operand more).words ++ rest = rest' := h_words
    exact absurd h_mul' not_stops_unaries
  | .cons operator operand more, .cons operator' operand' more' => by
    have ih_operand := operand.words_cancel operand'
    have ih_more := more.words_cancel more'
    intro rest rest' h_mul h_mul' h_words
    simp only [Unaries.words, List.cons_append, List.append_assoc, List.cons.injEq,
      Token.multiplicative.injEq] at h_words
    obtain ⟨rfl, h_after⟩ := h_words
    obtain ⟨rfl, h_last⟩ := ih_operand _ _ h_after
    obtain ⟨rfl, rfl⟩ := ih_more _ _ h_mul h_mul' h_last
    exact ⟨rfl, rfl⟩

/-- An operand tells by itself where it ends. -/
theorem Unary.words_cancel : (u u' : Unary) → ∀ rest rest' : List Token,
    u.words ++ rest = u'.words ++ rest' → u = u' ∧ rest = rest'
  | .signed sign operand, .signed sign' operand' => by
    have ih := operand.words_cancel operand'
    intro rest rest' h_words
    simp only [Unary.words, List.cons_append, List.cons.injEq, Token.additive.injEq] at h_words
    obtain ⟨rfl, h_after⟩ := h_words
    obtain ⟨rfl, rfl⟩ := ih _ _ h_after
    exact ⟨rfl, rfl⟩
  | .signed sign operand, .primary inner => by
    intro rest rest' h_words
    -- No number and no parenthesis is a sign.
    cases inner <;> simp [Unary.words, Primary.words] at h_words
  | .primary inner, .signed sign operand => by
    intro rest rest' h_words
    cases inner <;> simp [Unary.words, Primary.words] at h_words
  | .primary inner, .primary inner' => by
    have ih := inner.words_cancel inner'
    intro rest rest' h_words
    obtain ⟨rfl, rfl⟩ := ih _ _ h_words
    exact ⟨rfl, rfl⟩

theorem Primary.words_cancel : (p p' : Primary) → ∀ rest rest' : List Token,
    p.words ++ rest = p'.words ++ rest' → p = p' ∧ rest = rest'
  | .number value, .number value' => by
    intro rest rest' h_words
    simpa [Primary.words] using h_words
  | .number value, .parenthesized inner => by
    intro rest rest' h_words
    simp [Primary.words] at h_words
  | .parenthesized inner, .number value => by
    intro rest rest' h_words
    simp [Primary.words] at h_words
  | .parenthesized inner, .parenthesized inner' => by
    have ih := inner.words_cancel inner'
    intro rest rest' h_words
    simp only [Primary.words, List.cons_append, List.append_assoc, List.cons.injEq, true_and,
      List.nil_append] at h_words
    obtain ⟨rfl, h_after⟩ := ih _ _ (ends_closing rest) (ends_closing rest') h_words
    exact ⟨rfl, (List.cons.inj h_after).2⟩

end

/-- A list of words has one derivation at most. -/
theorem Expr.eq_of_words_eq {e e' : Expr} (h : e.words = e'.words) : e = e' := by
  have h_rest : e.words ++ [] = e'.words ++ [] := by rw [h]
  exact (e.words_cancel e' [] [] ends_nil ends_nil h_rest).1

/-! ## What a reader takes -/

/-- The reader of a part has found this value and left these words. -/
def Yields {bound : Nat} (outcome : Except EvalError (Part bound)) (value : Float)
    (rest : List Token) : Prop :=
  ∃ shorter, outcome = .ok ⟨value, rest, shorter⟩

section Yielding

variable {bound : Nat} {value : Float} {rest : List Token}

theorem yields_ok_iff {part : Part bound} :
    Yields (.ok part) value rest ↔ part.value = value ∧ part.rest = rest := by
  constructor
  · rintro ⟨shorter, h_part⟩
    obtain rfl := Except.ok.inj h_part
    exact ⟨rfl, rfl⟩
  · rintro ⟨rfl, rfl⟩
    exact ⟨part.shorter, rfl⟩

theorem not_yields_error {error : EvalError} :
    ¬ Yields (.error error : Except EvalError (Part bound)) value rest := by
  rintro ⟨shorter, h_part⟩
  exact absurd h_part (by simp)

theorem not_yields_of_eq {outcome : Except EvalError (Part bound)} {error : EvalError}
    (h : outcome = .error error) : ¬ Yields outcome value rest :=
  h ▸ not_yields_error

theorem yields_bind_iff {α : Type} {first : Except EvalError α}
    {next : α → Except EvalError (Part bound)} :
    Yields (first >>= next) value rest ↔ ∃ a, first = .ok a ∧ Yields (next a) value rest := by
  constructor
  · intro h
    cases first with
    | error error => exact absurd h not_yields_error
    | ok a => exact ⟨a, rfl, h⟩
  · rintro ⟨a, rfl, h⟩
    exact h

/-- What was read is what the reader yields. -/
theorem Yields.of_eq {outcome : Except EvalError (Part bound)} {part : Part bound}
    (h : outcome = .ok part) : Yields outcome part.value part.rest :=
  h ▸ yields_ok_iff.2 ⟨rfl, rfl⟩

end Yielding

/-! ### Operators between operands -/

section Chain

variable {Op : Type} {operator? : Token → Option Op}
  {apply : Op → Float → Float → Except EvalError Float} {operand : PartReader} {bound : Nat}
  {left value : Float} {ts rest : List Token}

/-- Where no operator comes, the value so far is the value. -/
theorem chain_yields_of_stops {shorter : ts.length < bound} (h_stops : Stops operator? ts) :
    Yields (chain operator? apply operand bound left ts shorter) value rest ↔
      left = value ∧ ts = rest := by
  cases ts with
  | nil => rw [chain]; exact yields_ok_iff
  | cons token ts =>
    rw [chain, stops_cons_iff.1 h_stops]
    exact yields_ok_iff

/-- An operator takes the operand after it, and the reading goes on from what it makes of both. -/
theorem chain_yields_of_operator {token : Token} {operator : Op}
    {shorter : (token :: ts).length < bound} (h_operator : operator? token = some operator) :
    Yields (chain operator? apply operand bound left (token :: ts) shorter) value rest ↔
      ∃ (right : Part ts.length) (next : Float) (shorter' : right.rest.length < bound),
        operand ts = .ok right ∧ apply operator left right.value = .ok next ∧
          Yields (chain operator? apply operand bound next right.rest shorter') value rest := by
  rw [chain, h_operator]
  dsimp only
  constructor
  · intro h
    cases h_operand : operand ts with
    | error error =>
      rw [h_operand] at h
      exact absurd h not_yields_error
    | ok right =>
      rw [h_operand] at h
      dsimp only at h
      cases h_apply : apply operator left right.value with
      | error error =>
        rw [h_apply] at h
        exact absurd h not_yields_error
      | ok next =>
        rw [h_apply] at h
        exact ⟨right, next, _, rfl, h_apply, h⟩
  · rintro ⟨right, next, _, h_right, h_next, h⟩
    rw [h_right]
    dsimp only
    rw [h_next]
    exact h

/-- What holds where no operator comes, and is kept by each operator with its operand, holds of all
    that is read. The induction is on the words, of which each operand takes some. -/
theorem Yields.chain_induction {motive : Float → List Token → Float → List Token → Prop}
    (stop : ∀ left ts, Stops operator? ts → motive left ts left ts)
    (step : ∀ {left x next value token operator ts after rest}, operator? token = some operator →
      Yields (operand ts) x after → apply operator left x = .ok next →
        motive next after value rest → motive left (token :: ts) value rest)
    {shorter : ts.length < bound}
    (h : Yields (chain operator? apply operand bound left ts shorter) value rest) :
    motive left ts value rest := by
  generalize h_length : ts.length = length
  induction length using Nat.strong_induction_on generalizing left ts with
  | _ length ih =>
    by_cases h_stops : Stops operator? ts
    · obtain ⟨rfl, rfl⟩ := (chain_yields_of_stops h_stops).1 h
      exact stop left ts h_stops
    · cases ts with
      | nil => exact absurd stops_nil h_stops
      | cons token ts =>
        obtain ⟨operator, h_operator⟩ := Option.ne_none_iff_exists'.1 (mt stops_cons_iff.2 h_stops)
        obtain ⟨right, next, _, h_right, h_next, h_rest⟩ :=
          (chain_yields_of_operator h_operator).1 h
        have h_less := right.shorter
        rw [List.length_cons] at h_length
        exact step h_operator (.of_eq h_right) h_next (ih right.rest.length (by omega) h_rest rfl)

/-- An operator and an operand in front of what can be read. -/
theorem Yields.chain_operator {token : Token} {operator : Op} {x next : Float}
    {words after : List Token} {shorter : words.length < bound} (h_words : words = token :: ts)
    (h_operator : operator? token = some operator)
    (h_operand : Yields (operand ts) x after) (h_apply : apply operator left x = .ok next)
    (h_rest : ∀ shorter' : after.length < bound,
      Yields (chain operator? apply operand bound next after shorter') value rest) :
    Yields (chain operator? apply operand bound left words shorter) value rest := by
  subst h_words
  obtain ⟨h_less, h_right⟩ := h_operand
  have h_bound : after.length < bound := by
    rw [List.length_cons] at shorter
    omega
  exact (chain_yields_of_operator h_operator).2
    ⟨⟨x, after, h_less⟩, next, h_bound, h_right, h_apply, h_rest h_bound⟩

theorem series_yields_iff :
    Yields (series operator? apply operand ts) value rest ↔
      ∃ (first : Float) (after : List Token) (shorter : after.length < ts.length),
        Yields (operand ts) first after ∧
          Yields (chain operator? apply operand ts.length first after shorter) value rest := by
  refine yields_bind_iff.trans ⟨?_, ?_⟩
  · rintro ⟨part, h_part, h_rest⟩
    exact ⟨part.value, part.rest, part.shorter, .of_eq h_part, h_rest⟩
  · rintro ⟨first, after, _, ⟨shorter, h_part⟩, h_rest⟩
    exact ⟨⟨first, after, shorter⟩, h_part, h_rest⟩

end Chain

/-! ### Operators -/

/-- An operator is applied where the grammar admits it, with the value of the grammar. -/
theorem Multiplicative.apply_eq_ok_iff {operator : Multiplicative} {left right value : Float} :
    operator.apply left right = .ok value ↔
      operator.admits right = true ∧ operator.value left right = value := by
  cases operator <;> cases h_zero : right == 0 <;>
    simp [Multiplicative.apply, Multiplicative.admits, Multiplicative.value, h_zero]

theorem Additive.apply_eq_ok_iff {operator : Additive} {left right value : Float} :
    operator.apply left right = .ok value ↔ operator.value left right = value := by
  cases operator <;> simp [Additive.apply, Additive.value]

theorem Additive.sign_eq (operator : Additive) (operand : Float) :
    operator.sign operand = operator.signed operand := by
  cases operator <;> rfl

theorem multiplicative?_eq_some_iff {token : Token} {operator : Multiplicative} :
    multiplicative? token = some operator ↔ token = .multiplicative operator := by
  cases token <;> simp [multiplicative?]

theorem additive?_eq_some_iff {token : Token} {operator : Additive} :
    additive? token = some operator ↔ token = .additive operator := by
  cases token <;> simp [additive?]

/-! ## The readers follow the grammar -/

/-- The reader takes the operands that nest to so many levels and divide by no zero. -/
def ReadsUnary (levels : Nat) (read : PartReader) : Prop :=
  ∀ ts value rest, Yields (read ts) value rest ↔
    ∃ u : Unary, u.words ++ rest = ts ∧ u.nesting ≤ levels ∧ u.isDefined = true ∧ u.value = value

/-- The reader takes such products, each to its end. -/
def ReadsTerm (levels : Nat) (read : PartReader) : Prop :=
  ∀ ts value rest, Yields (read ts) value rest ↔
    ∃ t : Term, t.words ++ rest = ts ∧ Stops multiplicative? rest ∧ t.nesting ≤ levels ∧
      t.isDefined = true ∧ t.value = value

/-- The reader takes such sums, each to its end. -/
def ReadsExpr (levels : Nat) (read : PartReader) : Prop :=
  ∀ ts value rest, Yields (read ts) value rest ↔
    ∃ e : Expr, e.words ++ rest = ts ∧ Ends rest ∧ e.nesting ≤ levels ∧ e.isDefined = true ∧
      e.value = value

section Levels

variable {levels : Nat} {read : PartReader} {bound : Nat}

/-! ### Products -/

theorem exists_unaries (h_read : ReadsUnary levels read) {left value : Float}
    {ts rest : List Token} {shorter : ts.length < bound}
    (h : Yields (chain multiplicative? Multiplicative.apply read bound left ts shorter) value
      rest) :
    ∃ more : Unaries, more.words ++ rest = ts ∧ Stops multiplicative? rest ∧ more.nesting ≤ levels ∧
      more.isDefined = true ∧ more.valueAfter left = value := by
  refine h.chain_induction
    (motive := fun left ts value rest => ∃ more : Unaries, more.words ++ rest = ts ∧
      Stops multiplicative? rest ∧ more.nesting ≤ levels ∧ more.isDefined = true ∧
        more.valueAfter left = value) ?_ ?_
  · exact fun left ts h_stops => ⟨.nil, rfl, h_stops, Nat.zero_le _, rfl, rfl⟩
  · rintro left x next value token operator ts after rest h_operator h_operand h_next
      ⟨more, h_words, h_stops, h_nesting, h_defined, rfl⟩
    obtain ⟨u, rfl, h_nesting', h_defined', rfl⟩ := (h_read ..).1 h_operand
    obtain ⟨h_admits, rfl⟩ := Multiplicative.apply_eq_ok_iff.1 h_next
    obtain rfl := multiplicative?_eq_some_iff.1 h_operator
    refine ⟨.cons operator u more, ?_, h_stops, ?_, ?_, rfl⟩
    · rw [Unaries.words_cons_append, h_words]
    · rw [Unaries.nesting]
      exact Nat.max_le.2 ⟨h_nesting', h_nesting⟩
    · rw [Unaries.isDefined, h_defined', h_admits, h_defined]
      rfl

theorem yields_unaries (h_read : ReadsUnary levels read) : (more : Unaries) →
    ∀ (left : Float) (rest : List Token) (shorter : (more.words ++ rest).length < bound),
      Stops multiplicative? rest → more.nesting ≤ levels → more.isDefined = true →
        Yields
          (chain multiplicative? Multiplicative.apply read bound left (more.words ++ rest) shorter)
          (more.valueAfter left) rest
  | .nil => fun _ _ _ h_stops _ _ => (chain_yields_of_stops h_stops).2 ⟨rfl, rfl⟩
  | .cons operator operand more => by
    have ih := yields_unaries h_read more
    intro left rest shorter h_stops h_nesting h_defined
    rw [Unaries.nesting, Nat.max_le] at h_nesting
    rw [Unaries.isDefined, Bool.and_eq_true, Bool.and_eq_true] at h_defined
    have h_operand : Yields (read (operand.words ++ (more.words ++ rest))) operand.value
        (more.words ++ rest) := (h_read ..).2 ⟨operand, rfl, h_nesting.1, h_defined.1.1, rfl⟩
    -- The operator is applied to the operand, which the others are read behind.
    exact .chain_operator (Unaries.words_cons_append operator operand more rest)
      (multiplicative?_eq_some_iff.2 rfl) h_operand
      (Multiplicative.apply_eq_ok_iff.2 ⟨h_defined.1.2, rfl⟩)
      fun shorter' => ih _ rest shorter' h_stops h_nesting.2 h_defined.2

/-- A reader of operands makes a reader of products. -/
theorem ReadsUnary.product (h_read : ReadsUnary levels read) :
    ReadsTerm levels (series multiplicative? Multiplicative.apply read) := by
  intro ts value rest
  rw [series_yields_iff]
  constructor
  · rintro ⟨first, after, _, h_first, h_more⟩
    obtain ⟨u, rfl, h_nesting, h_defined, rfl⟩ := (h_read ..).1 h_first
    obtain ⟨more, rfl, h_stops, h_nesting', h_defined', rfl⟩ := exists_unaries h_read h_more
    refine ⟨.mk u more, ?_, h_stops, ?_, ?_, rfl⟩
    · rw [Term.words, List.append_assoc]
    · rw [Term.nesting]
      exact Nat.max_le.2 ⟨h_nesting, h_nesting'⟩
    · rw [Term.isDefined, h_defined, h_defined']
      rfl
  · rintro ⟨⟨u, more⟩, rfl, h_stops, h_nesting, h_defined, rfl⟩
    rw [Term.nesting, Nat.max_le] at h_nesting
    rw [Term.isDefined, Bool.and_eq_true] at h_defined
    have h_first : Yields (read ((Term.mk u more).words ++ rest)) u.value (more.words ++ rest) :=
      (h_read ..).2 ⟨u, by rw [Term.words, List.append_assoc], h_nesting.1, h_defined.1, rfl⟩
    -- The first operand leaves fewer words, which bounds how often the chain goes on.
    have ⟨shorter, _⟩ := h_first
    exact ⟨_, _, shorter, h_first, yields_unaries h_read more _ _ _ h_stops h_nesting.2 h_defined.2⟩

/-! ### Sums -/

theorem exists_terms (h_read : ReadsTerm levels read) {left value : Float}
    {ts rest : List Token} {shorter : ts.length < bound} (h_start : Stops multiplicative? ts)
    (h : Yields (chain additive? Additive.apply read bound left ts shorter) value rest) :
    ∃ more : Terms, more.words ++ rest = ts ∧ Ends rest ∧ more.nesting ≤ levels ∧
      more.isDefined = true ∧ more.valueAfter left = value := by
  -- Each term is read to its end, so that no product can go on where the next operator is looked
  -- for; the motive carries this along.
  revert h_start
  refine h.chain_induction
    (motive := fun left ts value rest => Stops multiplicative? ts → ∃ more : Terms,
      more.words ++ rest = ts ∧ Ends rest ∧ more.nesting ≤ levels ∧ more.isDefined = true ∧
        more.valueAfter left = value) ?_ ?_
  · exact fun left ts h_stops h_start =>
      ⟨.nil, rfl, ⟨h_stops, h_start⟩, Nat.zero_le _, rfl, rfl⟩
  · intro left x next value token operator ts after rest h_operator h_operand h_next ih _
    obtain ⟨t, rfl, h_end, h_nesting', h_defined', rfl⟩ := (h_read ..).1 h_operand
    obtain ⟨more, h_words, h_stops, h_nesting, h_defined, rfl⟩ := ih h_end
    obtain rfl := Additive.apply_eq_ok_iff.1 h_next
    obtain rfl := additive?_eq_some_iff.1 h_operator
    refine ⟨.cons operator t more, ?_, h_stops, ?_, ?_, rfl⟩
    · rw [Terms.words_cons_append, h_words]
    · rw [Terms.nesting]
      exact Nat.max_le.2 ⟨h_nesting', h_nesting⟩
    · rw [Terms.isDefined, h_defined', h_defined]
      rfl

theorem yields_terms (h_read : ReadsTerm levels read) : (more : Terms) →
    ∀ (left : Float) (rest : List Token) (shorter : (more.words ++ rest).length < bound),
      Ends rest → more.nesting ≤ levels → more.isDefined = true →
        Yields (chain additive? Additive.apply read bound left (more.words ++ rest) shorter)
          (more.valueAfter left) rest
  | .nil => fun _ _ _ h_stops _ _ => (chain_yields_of_stops h_stops.1).2 ⟨rfl, rfl⟩
  | .cons operator term more => by
    have ih := yields_terms h_read more
    intro left rest shorter h_stops h_nesting h_defined
    rw [Terms.nesting, Nat.max_le] at h_nesting
    rw [Terms.isDefined, Bool.and_eq_true] at h_defined
    have h_term : Yields (read (term.words ++ (more.words ++ rest))) term.value
        (more.words ++ rest) :=
      (h_read ..).2 ⟨term, rfl, stops_terms more h_stops.2, h_nesting.1, h_defined.1, rfl⟩
    exact .chain_operator (Terms.words_cons_append operator term more rest)
      (additive?_eq_some_iff.2 rfl) h_term (Additive.apply_eq_ok_iff.2 rfl)
      fun shorter' => ih _ rest shorter' h_stops h_nesting.2 h_defined.2

/-- A reader of products makes a reader of sums. -/
theorem ReadsTerm.sum (h_read : ReadsTerm levels read) :
    ReadsExpr levels (series additive? Additive.apply read) := by
  intro ts value rest
  rw [series_yields_iff]
  constructor
  · rintro ⟨first, after, _, h_first, h_more⟩
    obtain ⟨t, rfl, h_start, h_nesting, h_defined, rfl⟩ := (h_read ..).1 h_first
    obtain ⟨more, rfl, h_stops, h_nesting', h_defined', rfl⟩ := exists_terms h_read h_start h_more
    refine ⟨.mk t more, ?_, h_stops, ?_, ?_, rfl⟩
    · rw [Expr.words, List.append_assoc]
    · rw [Expr.nesting]
      exact Nat.max_le.2 ⟨h_nesting, h_nesting'⟩
    · rw [Expr.isDefined, h_defined, h_defined']
      rfl
  · rintro ⟨⟨t, more⟩, rfl, h_stops, h_nesting, h_defined, rfl⟩
    rw [Expr.nesting, Nat.max_le] at h_nesting
    rw [Expr.isDefined, Bool.and_eq_true] at h_defined
    have h_first : Yields (read ((Expr.mk t more).words ++ rest)) t.value (more.words ++ rest) :=
      (h_read ..).2 ⟨t, by rw [Expr.words, List.append_assoc], stops_terms more h_stops.2,
        h_nesting.1, h_defined.1, rfl⟩
    have ⟨shorter, _⟩ := h_first
    exact ⟨_, _, shorter, h_first, yields_terms h_read more _ _ _ h_stops h_nesting.2 h_defined.2⟩

end Levels

/-! ### Operands -/

section Factor

variable {levels : Nat} {value x : Float} {ts rest : List Token}

theorem factor_number_yields_iff :
    Yields (factor levels (.number x :: ts)) value rest ↔ x = value ∧ ts = rest := by
  have h_factor : factor levels (.number x :: ts) = .ok ⟨x, ts, by simp⟩ := by
    cases levels <;> rfl
  rw [h_factor]
  exact yields_ok_iff

theorem factor_sign_yields_iff {sign : Additive} :
    Yields (factor (levels + 1) (.additive sign :: ts)) value rest ↔
      ∃ operand, Yields (factor levels ts) operand rest ∧ sign.signed operand = value := by
  rw [factor, yields_bind_iff]
  constructor
  · rintro ⟨operand, h_operand, h⟩
    obtain ⟨rfl, rfl⟩ := yields_ok_iff.1 h
    exact ⟨operand.value, .of_eq h_operand, (Additive.sign_eq ..).symm⟩
  · rintro ⟨operand, ⟨shorter, h_operand⟩, rfl⟩
    exact ⟨_, h_operand, yields_ok_iff.2 ⟨Additive.sign_eq .., rfl⟩⟩

theorem factor_opening_yields_iff :
    Yields (factor (levels + 1) (.opening :: ts)) value rest ↔
      Yields (sum (factor levels) ts) value (.closing :: rest) := by
  rw [factor, yields_bind_iff]
  constructor
  · rintro ⟨inner, h_inner, h⟩
    dsimp only at h
    split at h
    · rename_i after h_after
      obtain ⟨rfl, rfl⟩ := yields_ok_iff.1 h
      have h_found := Yields.of_eq h_inner
      rw [h_after] at h_found
      exact h_found
    · exact absurd h not_yields_error
    · exact absurd h not_yields_error
  · rintro ⟨shorter, h_inner⟩
    exact ⟨_, h_inner, yields_ok_iff.2 ⟨rfl, rfl⟩⟩

/-- What is read as an operand is derived, if that is so one level further in. -/
theorem exists_unary (h_inner : ∀ k, levels = k + 1 → ReadsUnary k (factor k))
    (h : Yields (factor levels ts) value rest) :
    ∃ u : Unary, u.words ++ rest = ts ∧ u.nesting ≤ levels ∧ u.isDefined = true ∧
      u.value = value := by
  cases ts with
  | nil =>
    have h_factor : factor levels [] = .error .unexpectedEnd := by cases levels <;> rfl
    exact absurd h (not_yields_of_eq h_factor)
  | cons token ts =>
    cases token with
    | number x =>
      obtain ⟨rfl, rfl⟩ := factor_number_yields_iff.1 h
      exact ⟨.primary (.number x), rfl, Nat.zero_le _, rfl, rfl⟩
    | additive sign =>
      cases levels with
      -- Where no level is free, neither a sign nor a parenthesis can be read.
      | zero => exact absurd h (not_yields_of_eq rfl)
      | succ k =>
        obtain ⟨operand, h_operand, rfl⟩ := factor_sign_yields_iff.1 h
        obtain ⟨u, rfl, h_nesting, h_defined, rfl⟩ := (h_inner k rfl ..).1 h_operand
        exact ⟨.signed sign u, rfl, Nat.succ_le_succ h_nesting, h_defined, rfl⟩
    | opening =>
      cases levels with
      | zero => exact absurd h (not_yields_of_eq rfl)
      | succ k =>
        obtain ⟨e, rfl, -, h_nesting, h_defined, rfl⟩ :=
          ((h_inner k rfl).product.sum ..).1 (factor_opening_yields_iff.1 h)
        exact ⟨.primary (.parenthesized e), Unary.words_parenthesized_append e rest,
          Nat.succ_le_succ h_nesting, h_defined, rfl⟩
    | closing =>
      have h_factor : factor levels (.closing :: ts) =
          .error (.unexpectedToken Token.closing.describe) := by
        cases levels <;> rfl
      exact absurd h (not_yields_of_eq h_factor)
    | multiplicative operator =>
      have h_factor : factor levels (.multiplicative operator :: ts) =
          .error (.unexpectedToken (Token.multiplicative operator).describe) := by
        cases levels <;> rfl
      exact absurd h (not_yields_of_eq h_factor)

/-- What is derived as an operand is read, if that is so one level further in. -/
theorem yields_unary (h_inner : ∀ k, levels = k + 1 → ReadsUnary k (factor k)) (u : Unary)
    (h_nesting : u.nesting ≤ levels) (h_defined : u.isDefined = true) :
    Yields (factor levels (u.words ++ rest)) u.value rest := by
  cases u with
  | signed sign operand =>
    rw [Unary.nesting] at h_nesting
    obtain ⟨k, rfl⟩ : ∃ k, levels = k + 1 := ⟨levels - 1, by omega⟩
    rw [Unary.words, List.cons_append, factor_sign_yields_iff]
    exact ⟨_, (h_inner k rfl ..).2 ⟨operand, rfl, by omega, h_defined, rfl⟩, rfl⟩
  | primary inner =>
    cases inner with
    | number x => exact factor_number_yields_iff.2 ⟨rfl, rfl⟩
    | parenthesized e =>
      rw [Unary.nesting, Primary.nesting] at h_nesting
      obtain ⟨k, rfl⟩ : ∃ k, levels = k + 1 := ⟨levels - 1, by omega⟩
      rw [Unary.words_parenthesized_append, factor_opening_yields_iff]
      exact ((h_inner k rfl).product.sum ..).2
        ⟨e, rfl, ends_closing rest, by omega, h_defined, rfl⟩

end Factor

/-- At every level, the operands of that level are read. -/
theorem readsUnary_factor (levels : Nat) : ReadsUnary levels (factor levels) := by
  -- The induction is on the levels: behind a sign and in a parenthesis one less is free.
  have h_inner : ∀ k, levels = k + 1 → ReadsUnary k (factor k) := by
    rintro k rfl
    exact readsUnary_factor k
  intro ts value rest
  constructor
  · exact exists_unary h_inner
  · rintro ⟨u, rfl, h_nesting, h_defined, rfl⟩
    exact yields_unary h_inner u h_nesting h_defined

/-! ## Whole formulas -/

/-- A formula has a value if its words are those of a sum, and no more. -/
theorem value_eq_ok_iff_yields {ts : List Token} {v : Float} :
    value ts = .ok v ↔ Yields (sum (factor nestingLimit) ts) v [] := by
  unfold value
  cases sum (factor nestingLimit) ts with
  | error error =>
    refine ⟨fun h => absurd h ?_, fun h => absurd h not_yields_error⟩
    simp [bind, Except.bind]
  | ok part =>
    rw [yields_ok_iff]
    -- Words that are left over are an error of the formula.
    obtain ⟨found, rest, shorter⟩ := part
    cases rest with
    | nil => simp [bind, Except.bind, pure, Except.pure]
    | cons token rest => simp [bind, Except.bind, throw, throwThe, MonadExceptOf.throw]

/-- A formula has a value if and only if its words have a derivation within the nesting limit in
    which no zero divides, and the value is that of the derivation. There is no other derivation. -/
theorem value_eq_ok_iff {ts : List Token} {v : Float} :
    value ts = .ok v ↔
      ∃ e : Expr, (∀ d : Expr, d.words = ts ↔ d = e) ∧ e.nesting ≤ nestingLimit ∧
        e.isDefined = true ∧ e.value = v := by
  rw [value_eq_ok_iff_yields]
  refine ((readsUnary_factor nestingLimit).product.sum ts v []).trans ⟨?_, ?_⟩
  · rintro ⟨e, h_words, -, h_rest⟩
    rw [List.append_nil] at h_words
    refine ⟨e, fun d => ⟨fun h => Expr.eq_of_words_eq (h.trans h_words.symm), ?_⟩, h_rest⟩
    rintro rfl
    exact h_words
  · rintro ⟨e, h_words, h_rest⟩
    exact ⟨e, by rw [List.append_nil, (h_words e).2 rfl], ends_nil, h_rest⟩

end DiceMarkup.Formula.Infix
