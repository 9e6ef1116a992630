/-
  DiceMarkup.Proofs.Division

  Infix formulas that divide by zero. A derivation that keeps to the nesting
  limit is read to its end unless a zero stands on the right of a quotient or a
  remainder, and where one does, that is the error: nothing else can go wrong
  with words that have a derivation. Main statement: the value of such words, or
  the error in its place.

  Pieces:
  * `DividesByZero` — the reader of a part meets a zero
  * `FailsUnary`, `FailsTerm`, `FailsExpr` — the readers do so where the grammar says
  * `FailsUnary.product`, `FailsTerm.sum`, `failsUnary_factor` — from operands to sums
  * `value_words` — whole formulas
-/
import DiceMarkup.Proofs.Grammar

namespace DiceMarkup.Formula.Infix

/-! ## Errors of a reader -/

/-- The reader of a part has met a division by zero. -/
def DividesByZero {bound : Nat} (outcome : Except EvalError (Part bound)) : Prop :=
  outcome = .error .divisionByZero

section Chain

variable {Op : Type} {operator? : Token → Option Op}
  {apply : Op → Float → Float → Except EvalError Float} {operand : PartReader} {bound : Nat}
  {left x next : Float} {token : Token} {operator : Op} {words ts after : List Token}

theorem DividesByZero.bind {α : Type} {first : Except EvalError α}
    {next : α → Except EvalError (Part bound)} (h : first = .error .divisionByZero) :
    DividesByZero (first >>= next) :=
  h ▸ rfl

/-- An operand divides by zero. -/
theorem DividesByZero.chain_operand {shorter : words.length < bound} (h_words : words = token :: ts)
    (h_operator : operator? token = some operator) (h_operand : DividesByZero (operand ts)) :
    DividesByZero (chain operator? apply operand bound left words shorter) := by
  subst h_words
  rw [DividesByZero, chain, h_operator]
  dsimp only
  rw [h_operand]

/-- The operator divides by its operand, which is zero. -/
theorem DividesByZero.chain_apply {shorter : words.length < bound} (h_words : words = token :: ts)
    (h_operator : operator? token = some operator) (h_operand : Yields (operand ts) x after)
    (h_apply : apply operator left x = .error .divisionByZero) :
    DividesByZero (chain operator? apply operand bound left words shorter) := by
  subst h_words
  obtain ⟨_, h_right⟩ := h_operand
  rw [DividesByZero, chain, h_operator]
  dsimp only
  rw [h_right]
  dsimp only
  rw [h_apply]

/-- What comes after the operand divides by zero. -/
theorem DividesByZero.chain_rest {shorter : words.length < bound} (h_words : words = token :: ts)
    (h_operator : operator? token = some operator) (h_operand : Yields (operand ts) x after)
    (h_apply : apply operator left x = .ok next)
    (h_rest : ∀ shorter' : after.length < bound,
      DividesByZero (chain operator? apply operand bound next after shorter')) :
    DividesByZero (chain operator? apply operand bound left words shorter) := by
  subst h_words
  obtain ⟨h_less, h_right⟩ := h_operand
  have h_bound : after.length < bound := by
    rw [List.length_cons] at shorter
    omega
  rw [DividesByZero, chain, h_operator]
  dsimp only
  rw [h_right]
  dsimp only
  rw [h_apply]
  exact h_rest h_bound

theorem DividesByZero.series_rest (h_operand : Yields (operand ts) x after)
    (h_rest : ∀ shorter : after.length < ts.length,
      DividesByZero (chain operator? apply operand ts.length x after shorter)) :
    DividesByZero (series operator? apply operand ts) := by
  obtain ⟨h_less, h_first⟩ := h_operand
  rw [DividesByZero, series, h_first]
  exact h_rest h_less

end Chain

/-! ## The readers fail where the grammar does -/

/-- The reader meets a zero in the operands that nest to so many levels and divide by one. -/
def FailsUnary (levels : Nat) (read : PartReader) : Prop :=
  ∀ (u : Unary) (rest : List Token), u.nesting ≤ levels → u.isDefined = false →
    DividesByZero (read (u.words ++ rest))

/-- So it does in such products. -/
def FailsTerm (levels : Nat) (read : PartReader) : Prop :=
  ∀ (t : Term) (rest : List Token), Stops multiplicative? rest → t.nesting ≤ levels →
    t.isDefined = false → DividesByZero (read (t.words ++ rest))

/-- So it does in such sums. -/
def FailsExpr (levels : Nat) (read : PartReader) : Prop :=
  ∀ (e : Expr) (rest : List Token), Ends rest → e.nesting ≤ levels → e.isDefined = false →
    DividesByZero (read (e.words ++ rest))

theorem Multiplicative.apply_of_not_admits {operator : Multiplicative} {left right : Float}
    (h : operator.admits right = false) :
    operator.apply left right = .error .divisionByZero := by
  cases operator <;> cases h_zero : right == 0 <;>
    simp [Multiplicative.apply, Multiplicative.admits, h_zero] at h ⊢

section Levels

variable {levels : Nat} {read : PartReader} {bound : Nat}

theorem dividesByZero_unaries (h_read : ReadsUnary levels read) (h_fails : FailsUnary levels read) :
    (more : Unaries) → ∀ (left : Float) (rest : List Token)
      (shorter : (more.words ++ rest).length < bound),
      Stops multiplicative? rest → more.nesting ≤ levels → more.isDefined = false →
        DividesByZero
          (chain multiplicative? Multiplicative.apply read bound left (more.words ++ rest) shorter)
  | .nil => fun _ _ _ _ _ h_defined => absurd h_defined (by simp [Unaries.isDefined])
  | .cons operator operand more => by
    have ih := dividesByZero_unaries h_read h_fails more
    intro left rest shorter h_stops h_nesting h_defined
    rw [Unaries.nesting, Nat.max_le] at h_nesting
    rw [Unaries.isDefined] at h_defined
    have h_words := Unaries.words_cons_append operator operand more rest
    have h_operator := multiplicative?_eq_some_iff.2 (rfl : Token.multiplicative operator = _)
    -- A zero is met in the operand, by its operator, or behind both.
    cases h_first : operand.isDefined with
    | false => exact .chain_operand h_words h_operator (h_fails _ _ h_nesting.1 h_first)
    | true =>
      have h_operand : Yields (read (operand.words ++ (more.words ++ rest))) operand.value
          (more.words ++ rest) := (h_read ..).2 ⟨operand, rfl, h_nesting.1, h_first, rfl⟩
      cases h_admits : operator.admits operand.value with
      | false =>
        exact .chain_apply h_words h_operator h_operand
          (Multiplicative.apply_of_not_admits h_admits)
      | true =>
        rw [h_first, h_admits, Bool.true_and, Bool.true_and] at h_defined
        exact .chain_rest h_words h_operator h_operand
          (Multiplicative.apply_eq_ok_iff.2 ⟨h_admits, rfl⟩)
          fun shorter' => ih _ rest shorter' h_stops h_nesting.2 h_defined

/-- Where operands fail, products do. -/
theorem FailsUnary.product (h_fails : FailsUnary levels read) (h_read : ReadsUnary levels read) :
    FailsTerm levels (series multiplicative? Multiplicative.apply read) := by
  rintro ⟨u, more⟩ rest h_stops h_nesting h_defined
  rw [Term.nesting, Nat.max_le] at h_nesting
  rw [Term.isDefined] at h_defined
  rw [Term.words, List.append_assoc]
  cases h_first : u.isDefined with
  | false => exact .bind (h_fails _ _ h_nesting.1 h_first)
  | true =>
    rw [h_first, Bool.true_and] at h_defined
    exact .series_rest ((h_read ..).2 ⟨u, rfl, h_nesting.1, h_first, rfl⟩) fun shorter =>
      dividesByZero_unaries h_read h_fails more _ rest shorter h_stops h_nesting.2 h_defined

theorem dividesByZero_terms (h_read : ReadsTerm levels read) (h_fails : FailsTerm levels read) :
    (more : Terms) → ∀ (left : Float) (rest : List Token)
      (shorter : (more.words ++ rest).length < bound),
      Ends rest → more.nesting ≤ levels → more.isDefined = false →
        DividesByZero (chain additive? Additive.apply read bound left (more.words ++ rest) shorter)
  | .nil => fun _ _ _ _ _ h_defined => absurd h_defined (by simp [Terms.isDefined])
  | .cons operator term more => by
    have ih := dividesByZero_terms h_read h_fails more
    intro left rest shorter h_ends h_nesting h_defined
    rw [Terms.nesting, Nat.max_le] at h_nesting
    rw [Terms.isDefined] at h_defined
    have h_words := Terms.words_cons_append operator term more rest
    have h_operator := additive?_eq_some_iff.2 (rfl : Token.additive operator = _)
    have h_stops := stops_terms more h_ends.2
    cases h_first : term.isDefined with
    | false => exact .chain_operand h_words h_operator (h_fails _ _ h_stops h_nesting.1 h_first)
    | true =>
      rw [h_first, Bool.true_and] at h_defined
      have h_term : Yields (read (term.words ++ (more.words ++ rest))) term.value
          (more.words ++ rest) := (h_read ..).2 ⟨term, rfl, h_stops, h_nesting.1, h_first, rfl⟩
      -- Sums and differences of numbers have no error of their own.
      exact .chain_rest h_words h_operator h_term (Additive.apply_eq_ok_iff.2 rfl)
        fun shorter' => ih _ rest shorter' h_ends h_nesting.2 h_defined

/-- Where products fail, sums do. -/
theorem FailsTerm.sum (h_fails : FailsTerm levels read) (h_read : ReadsTerm levels read) :
    FailsExpr levels (series additive? Additive.apply read) := by
  rintro ⟨t, more⟩ rest h_ends h_nesting h_defined
  rw [Expr.nesting, Nat.max_le] at h_nesting
  rw [Expr.isDefined] at h_defined
  rw [Expr.words, List.append_assoc]
  have h_stops := stops_terms more h_ends.2
  cases h_first : t.isDefined with
  | false => exact .bind (h_fails _ _ h_stops h_nesting.1 h_first)
  | true =>
    rw [h_first, Bool.true_and] at h_defined
    exact .series_rest ((h_read ..).2 ⟨t, rfl, h_stops, h_nesting.1, h_first, rfl⟩) fun shorter =>
      dividesByZero_terms h_read h_fails more _ rest shorter h_ends h_nesting.2 h_defined

end Levels

/-- At every level, the operands of that level fail where the grammar says. -/
theorem failsUnary_factor (levels : Nat) : FailsUnary levels (factor levels) := by
  induction levels with
  -- Where no level is free, an operand is a number, and nothing is divided.
  | zero =>
    rintro (⟨sign, operand⟩ | ⟨x | e⟩) rest h_nesting h_defined
    · exact absurd h_nesting (by simp [Unary.nesting])
    · exact absurd h_defined (by simp [Unary.isDefined, Primary.isDefined])
    · exact absurd h_nesting (by simp [Unary.nesting, Primary.nesting])
  | succ levels ih =>
    rintro (⟨sign, operand⟩ | ⟨x | e⟩) rest h_nesting h_defined
    · rw [Unary.words, List.cons_append, factor]
      exact .bind (ih operand rest (Nat.le_of_succ_le_succ h_nesting) h_defined)
    · exact absurd h_defined (by simp [Unary.isDefined, Primary.isDefined])
    · have h_reads := readsUnary_factor levels
      rw [Unary.words_parenthesized_append, factor]
      exact .bind ((ih.product h_reads).sum h_reads.product e (.closing :: rest) (ends_closing rest)
        (Nat.le_of_succ_le_succ h_nesting) h_defined)

/-! ## Whole formulas -/

/-- Words that have a derivation within the nesting limit have its value, unless a zero divides. -/
theorem value_words {e : Expr} (h_nesting : e.nesting ≤ nestingLimit) :
    value e.words = if e.isDefined then .ok e.value else .error .divisionByZero := by
  have h_reads := readsUnary_factor nestingLimit
  cases h_defined : e.isDefined with
  | true =>
    rw [if_pos rfl, value_eq_ok_iff_yields]
    exact (h_reads.product.sum ..).2
      ⟨e, by rw [List.append_nil], ends_nil, h_nesting, h_defined, rfl⟩
  | false =>
    have h_sum := ((failsUnary_factor nestingLimit).product h_reads).sum h_reads.product e []
      ends_nil h_nesting h_defined
    rw [List.append_nil] at h_sum
    rw [if_neg Bool.false_ne_true, value, sum, h_sum]
    rfl

end DiceMarkup.Formula.Infix
