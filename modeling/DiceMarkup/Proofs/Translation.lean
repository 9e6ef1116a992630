/-
  DiceMarkup.Proofs.Translation

  What is shown for a formula with the operator in front is an infix formula.
  Its words are those of the operands with the operator between them, and the
  words have a derivation that nests one level deeper than the formula at most:
  a group becomes parentheses, and a negative number a number with a sign. A
  formula that was read keeps so far below the nesting limit that the infix
  reader meets no limit. Main statement: the text that is shown for a formula
  without dice has these words, and evaluating it can only divide by zero or
  leave the finite numbers.

  Pieces:
  * `Node.Diceless` — pieces without dice
  * `Prefix.groupWords?` — the words of a formula in infix form
  * `Prefix.Operator.expr` — operands with an operator between them, as a derivation
  * `Prefix.group_translated` — formulas of any shape
  * `Prefix.evaluate_translated` — formulas in a document
-/
import DiceMarkup.Proofs.Division
import DiceMarkup.Proofs.Lexing
import DiceMarkup.Proofs.Preview
import DiceMarkup.Proofs.Restoring
import DiceMarkup.Proofs.WellFormed

namespace DiceMarkup

open Rolling (Source)

/-! ## Pieces without dice -/

namespace Node

/-- No dice stands among these pieces or anywhere inside of them. -/
def Diceless (nodes : List Node) : Prop :=
  ∀ attributes children, .element Tag.dice.name attributes children ∉ subtreesAll nodes

namespace Diceless

variable {node : Node} {nodes items : List Node}

theorem head (h : Diceless (node :: nodes)) : Diceless [node] := by
  intro as cs h_mem
  refine h as cs ?_
  simp only [subtreesAll, List.append_nil, List.mem_append] at h_mem ⊢
  exact .inl h_mem

theorem tail (h : Diceless (node :: nodes)) : Diceless nodes :=
  fun as cs h_mem => h as cs (List.mem_append_right _ h_mem)

theorem group (h : Diceless [.group items]) : Diceless items := by
  intro as cs h_mem
  refine h as cs ?_
  simp only [subtreesAll, subtrees, List.append_nil, List.mem_cons]
  exact .inr h_mem

end Diceless

end Node

open Node (Diceless heightAll subtreesAll)

namespace Formula.Infix

/-! ## Operands with the same operator between them -/

/-- Terms of one operand each, with the same operator before each of them. -/
def Terms.ofUnaries (operator : Additive) : List Unary → Terms
  | [] => .nil
  | u :: us => .cons operator (.mk u .nil) (.ofUnaries operator us)

/-- Operands with the same operator before each of them. -/
def Unaries.ofList (operator : Multiplicative) : List Unary → Unaries
  | [] => .nil
  | u :: us => .cons operator u (.ofList operator us)

section

variable (us : List Unary)

theorem Terms.words_ofUnaries (operator : Additive) :
    (Terms.ofUnaries operator us).words = us.flatMap fun u => .additive operator :: u.words := by
  induction us with
  | nil => rfl
  | cons u us ih =>
    rw [Terms.ofUnaries, Terms.words, Term.words, Unaries.words, List.append_nil, ih]
    rfl

theorem Unaries.words_ofList (operator : Multiplicative) :
    (Unaries.ofList operator us).words =
      us.flatMap fun u => .multiplicative operator :: u.words := by
  induction us with
  | nil => rfl
  | cons u us ih =>
    rw [Unaries.ofList, Unaries.words, ih]
    rfl

variable {us} {levels : Nat}

theorem Terms.nesting_ofUnaries (operator : Additive) (h : ∀ u ∈ us, u.nesting ≤ levels) :
    (Terms.ofUnaries operator us).nesting ≤ levels := by
  induction us with
  | nil => exact Nat.zero_le levels
  | cons u us ih =>
    rw [List.forall_mem_cons] at h
    rw [Terms.ofUnaries, Terms.nesting, Term.nesting, Unaries.nesting, Nat.max_zero, Nat.max_le]
    exact ⟨h.1, ih h.2⟩

theorem Unaries.nesting_ofList (operator : Multiplicative) (h : ∀ u ∈ us, u.nesting ≤ levels) :
    (Unaries.ofList operator us).nesting ≤ levels := by
  induction us with
  | nil => exact Nat.zero_le levels
  | cons u us ih =>
    rw [List.forall_mem_cons] at h
    rw [Unaries.ofList, Unaries.nesting, Nat.max_le]
    exact ⟨h.1, ih h.2⟩

end

end Formula.Infix

/-! ## Formulas with the operator in front -/

namespace Formula.Prefix

open Infix (Expr IsNumber Reads Term Terms Token Unaries Unary)

/-! ### Words in infix form -/

/-- The operator in an infix formula. -/
def Operator.word : Operator → Token
  | plus => .additive .plus
  | minus => .additive .minus
  | times => .multiplicative .times
  | divide => .multiplicative .divide

/-- The words of a number: the sign, if there is one, and the number without it. -/
def literalWords? (written : String) : Option (List Token) := do
  let value ← readNumber? written
  match written.toList with
  | '-' :: unsigned =>
    let size ← readNumber? (String.ofList unsigned)
    return [.additive .minus, .number size]
  | _ => return [.number value]

mutual

/-- The words of a group in infix form: its operands with the operator between them. -/
def groupWords? : List Node → Option (List Token)
  | .text written :: arguments => do
    let operator ← Operator.ofText? written
    return [operator.word].intercalate (← operandsWords? arguments)
  | _ => none

def operandsWords? : List Node → Option (List (List Token))
  | [] => some []
  | argument :: arguments => do
    return (← operandWords? argument) :: (← operandsWords? arguments)

/-- The words of an operand: those of a number, or of a group in parentheses. -/
def operandWords? : Node → Option (List Token)
  | .text written => literalWords? written
  | .group items => do
    return .opening :: ((← groupWords? items) ++ [.closing])
  | .element .. => none

end

/-! ### Numbers -/

/-- A number without a sign. -/
def unsigned? (cs : List Char) : Option Float :=
  let whole := cs.takeWhile (· ≠ '.')
  let fraction := (cs.dropWhile (· ≠ '.')).drop 1
  let pointed := whole.length < cs.length
  if whole.isEmpty || !whole.all Char.isDigit then none
  else if pointed && (fraction.isEmpty || !fraction.all Char.isDigit) then none
  else some (Decimal.ofDigits whole fraction)

theorem readNumber?_eq (text : String) :
    readNumber? text = match text.toList with
      | '-' :: cs => (unsigned? cs).map Float.neg
      | cs => unsigned? cs :=
  rfl

theorem isNumber_of_unsigned? {cs : List Char} {x : Float} (h : unsigned? cs = some x) :
    IsNumber cs x := by
  -- The text is what stands before the first point, and from that point on the rest, if there is
  -- one.
  have h_split : cs.takeWhile (· ≠ '.') ++ cs.dropWhile (· ≠ '.') = cs :=
    List.takeWhile_append_dropWhile
  have h_point : ∀ c ∈ (cs.dropWhile (· ≠ '.')).head?, c = '.' := by
    intro c h_head
    have := List.head?_dropWhile_not (· ≠ '.') cs
    rw [h_head] at this
    simpa using this
  unfold unsigned? at h
  dsimp only at h
  generalize cs.takeWhile (· ≠ '.') = whole at h h_split
  generalize cs.dropWhile (· ≠ '.') = behind at h h_split h_point
  subst h_split
  rw [Option.ite_none_left_eq_some, Option.ite_none_left_eq_some] at h
  obtain ⟨h_whole, h_fraction, h_value⟩ := h
  obtain rfl := Option.some.inj h_value
  simp only [Bool.or_eq_true, not_or, List.isEmpty_iff, Bool.not_eq_true', Bool.not_eq_false,
    List.all_eq_true] at h_whole
  cases behind with
  | nil =>
    rw [List.append_nil]
    exact .whole h_whole.1 h_whole.2
  | cons c fraction =>
    obtain rfl := h_point c rfl
    simp at h_fraction
    exact .pointed h_whole.1 h_whole.2 h_fraction.2

/-- A number that is read is an operand, with a sign if it is negative. -/
theorem literal_translated {written : String} {value : Float}
    (h : readNumber? written = some value) :
    ∃ u : Unary, literalWords? written = some u.words ∧ Reads written.toList u.words ∧
      u.nesting ≤ 1 := by
  rw [literalWords?, h]
  rw [readNumber?_eq] at h
  split at h
  · rename_i unsigned h_written
    obtain ⟨size, h_size, rfl⟩ := Option.map_eq_some_iff.1 h
    have h_read : readNumber? (String.ofList unsigned) = some size := by
      rw [readNumber?_eq, String.toList_ofList]
      -- Behind the sign stand digits, so there is no second sign.
      split
      · exact absurd h_size (by simp [unsigned?])
      · exact h_size
    refine ⟨.signed .minus (.primary (.number size)), ?_, ?_, le_rfl⟩
    · simp only [Option.bind_eq_bind, Option.bind_some, h_read]
      rfl
    · rw [h_written]
      exact .symbol rfl (.number (isNumber_of_unsigned? h_size))
  · exact ⟨.primary (.number value), rfl, .number (isNumber_of_unsigned? h), Nat.zero_le 1⟩

/-! ### Operands with an operator between them -/

/-- The operands with the operator between them, as a sum or as a product. -/
def Operator.expr (operator : Operator) (first : Unary) (others : List Unary) : Expr :=
  match operator with
  | plus => .mk (.mk first .nil) (.ofUnaries .plus others)
  | minus => .mk (.mk first .nil) (.ofUnaries .minus others)
  | times => .mk (.mk first (.ofList .times others)) .nil
  | divide => .mk (.mk first (.ofList .divide others)) .nil

section

variable (operator : Operator) (first : Unary) (others : List Unary)

theorem intercalate_words (word : Token) (words : List Token) (more : List (List Token)) :
    [word].intercalate (words :: more) = words ++ more.flatMap (word :: ·) := by
  induction more generalizing words with
  | nil => simp
  | cons next more ih =>
    rw [List.intercalate_cons_cons, ih, List.flatMap_cons, List.append_assoc]
    rfl

theorem Operator.words_expr : (operator.expr first others).words =
    [operator.word].intercalate ((first :: others).map Unary.words) := by
  rw [List.map_cons, intercalate_words, List.flatMap_map]
  cases operator <;>
    simp [expr, word, Expr.words, Term.words, Terms.words, Unaries.words, Terms.words_ofUnaries,
      Unaries.words_ofList]

variable {first others} {levels : Nat}

theorem Operator.nesting_expr (h : ∀ u ∈ first :: others, u.nesting ≤ levels) :
    (operator.expr first others).nesting ≤ levels := by
  rw [List.forall_mem_cons] at h
  have h_terms := fun sign => Terms.nesting_ofUnaries sign h.2
  have h_operands := fun sign => Unaries.nesting_ofList sign h.2
  cases operator <;>
    simp [expr, Expr.nesting, Term.nesting, Terms.nesting, Unaries.nesting, h.1, h_terms,
      h_operands]

end

/-- Where each text has its words, the texts with an operator between them have the words with the
    operator between them. -/
theorem reads_joinTexts {operator : Operator} {texts : List String} {words : List (List Token)}
    (h : List.Forall₂ (fun text words => Reads text.toList words) texts words) :
    Reads (joinTexts operator texts).toList ([operator.word].intercalate words) := by
  have h_symbol : Token.ofSymbol? operator.symbol = some operator.word := by
    cases operator <;> rfl
  have h_between :
      (" " ++ operator.symbol.toString ++ " ").toList = [' ', operator.symbol, ' '] := by
    cases operator <;> rfl
  rw [joinTexts, String.toList_intercalate, h_between]
  induction h with
  | nil => exact .nil
  | @cons text first texts words h_first h_rest ih =>
    cases h_rest with
    | nil => simpa using h_first
    | cons h_next h_others =>
      rw [List.map_cons, List.map_cons, List.intercalate_cons_cons, List.intercalate_cons_cons,
        List.append_assoc, List.append_assoc]
      exact h_first.append (.space (.symbol h_symbol (.space ih)))
        fun rest _ => Infix.endsNumber_space _

/-! ### Formulas of any shape -/

variable {σ : Type} {reader : Option (Source σ)}

/-- What is shown for an operand has the words of the operand, and they have a derivation that nests
    one level deeper at most: a negative number has a sign. -/
structure Translated (argument : Node) (term : Result) (u : Unary) : Prop where
  words : operandWords? argument = some u.words
  reads : Reads term.expression.toList u.words
  low : u.nesting ≤ argument.height + 1

/-- A group with a value has operands, and is shown with the operator between them. -/
theorem combine_eq_ok {operator : Operator} {terms : List Result} {result : Result}
    (h : combine operator terms = .ok result) :
    terms ≠ [] ∧ result.expression = joinTexts operator (terms.map Result.expression) := by
  cases terms with
  | nil => exact absurd h nofun
  | cons first others =>
    rw [combine] at h
    cases h_apply : operator.apply first.value (others.map Result.value) with
    | error error =>
      rw [h_apply] at h
      exact absurd h nofun
    | ok value =>
      rw [h_apply] at h
      change (settle value >>= _) = _ at h
      cases h_settle : settle value with
      | error error =>
        rw [h_settle] at h
        exact absurd h nofun
      | ok settled =>
        rw [h_settle] at h
        rw [← Except.ok.inj h]
        exact ⟨List.cons_ne_nil first others, rfl⟩

mutual

/-- What is shown for a group has the words of the group, and they have a derivation. The induction
    is on the formula, whose groups are the parentheses of the derivation. -/
theorem group_translated : (items : List Node) → ∀ (s s' : σ) (result : Result), Diceless items →
    (group reader items).run s = (.ok result, s') →
      ∃ e : Expr, groupWords? items = some e.words ∧ Reads result.expression.toList e.words ∧
        e.nesting ≤ heightAll items + 1
  | [] => fun _ _ _ _ h => absurd (Prod.mk.inj h).1 nofun
  | .element .. :: _ => fun _ _ _ _ h => absurd (Prod.mk.inj h).1 nofun
  | .group _ :: _ => fun _ _ _ _ h => absurd (Prod.mk.inj h).1 nofun
  | .text written :: arguments => by
    have ih := operands_translated arguments
    intro s s' result h_diceless h
    rw [group] at h
    cases h_operator : Operator.ofText? written with
    | none =>
      rw [h_operator] at h
      exact absurd (Prod.mk.inj h).1 nofun
    | some operator =>
      rw [h_operator] at h
      obtain ⟨terms, between, h_terms, h_combine⟩ := Eval.run_bind_eq_ok.1 h
      obtain ⟨us, h_words, h_reads, h_low⟩ := ih _ _ _ h_diceless.tail h_terms
      rw [Eval.run_lift] at h_combine
      obtain ⟨h_some, h_expression⟩ := combine_eq_ok (Prod.mk.inj h_combine).1
      -- There is a first operand, since a group without operands has no value.
      cases h_reads with
      | nil => exact absurd rfl h_some
      | @cons term first terms others h_first h_others =>
        refine ⟨operator.expr first others, ?_, ?_, ?_⟩
        · rw [groupWords?, h_operator, h_words, Operator.words_expr]
          rfl
        · rw [h_expression, Operator.words_expr]
          exact reads_joinTexts (List.forall₂_map_left_iff.2 (List.forall₂_map_right_iff.2
            (.cons h_first h_others)))
        · have h_height : heightAll (.text written :: arguments) = heightAll arguments := by
            rw [heightAll, Node.height, Nat.zero_max]
          rw [h_height]
          exact operator.nesting_expr h_low

theorem operands_translated : (arguments : List Node) → ∀ (s s' : σ) (terms : List Result),
    Diceless arguments → (operands reader arguments).run s = (.ok terms, s') →
      ∃ us : List Unary, operandsWords? arguments = some (us.map Unary.words) ∧
        List.Forall₂ (fun term u => Reads term.expression.toList u.words) terms us ∧
          ∀ u ∈ us, u.nesting ≤ heightAll arguments + 1
  | [] => by
    intro s s' terms _ h
    obtain ⟨h_terms, -⟩ := Prod.mk.inj h
    obtain rfl := Except.ok.inj h_terms
    exact ⟨[], rfl, .nil, List.forall_mem_nil _⟩
  | argument :: arguments => by
    have ih_argument := operand_translated argument
    have ih_arguments := operands_translated arguments
    intro s s' terms h_diceless h
    rw [operands] at h
    obtain ⟨term, between, h_term, h_rest⟩ := Eval.run_bind_eq_ok.1 h
    obtain ⟨others, _, h_others, h_end⟩ := Eval.run_bind_eq_ok.1 h_rest
    obtain ⟨h_terms, -⟩ := Prod.mk.inj h_end
    obtain rfl := Except.ok.inj h_terms
    obtain ⟨u, h_u⟩ := ih_argument _ _ _ h_diceless.head h_term
    obtain ⟨us, h_words, h_reads, h_low⟩ := ih_arguments _ _ _ h_diceless.tail h_others
    refine ⟨u :: us, ?_, .cons h_u.reads h_reads, List.forall_mem_cons.2 ⟨?_, fun v h_mem => ?_⟩⟩
    · rw [operandsWords?, h_u.words, h_words]
      rfl
    · have := h_u.low
      rw [heightAll]
      omega
    · have := h_low v h_mem
      rw [heightAll]
      omega

theorem operand_translated : (argument : Node) → ∀ (s s' : σ) (term : Result), Diceless [argument] →
    (operand reader argument).run s = (.ok term, s') → ∃ u, Translated argument term u
  | .text written => by
    intro s s' term _ h
    rw [operand] at h
    cases h_number : readNumber? written with
    | none =>
      rw [h_number] at h
      exact absurd (Prod.mk.inj h).1 nofun
    | some value =>
      rw [h_number] at h
      obtain ⟨h_term, -⟩ := Prod.mk.inj h
      obtain rfl := Except.ok.inj h_term
      obtain ⟨u, h_words, h_reads, h_low⟩ := literal_translated h_number
      exact ⟨u, by rw [operandWords?, h_words], h_reads, by rw [Node.height]; exact h_low⟩
  | .group items => by
    have ih := group_translated items
    intro s s' term h_diceless h
    rw [operand] at h
    obtain ⟨inner, _, h_inner, h_end⟩ := Eval.run_bind_eq_ok.1 h
    obtain ⟨h_term, -⟩ := Prod.mk.inj h_end
    obtain rfl := Except.ok.inj h_term
    obtain ⟨e, h_words, h_reads, h_low⟩ := ih _ _ _ h_diceless.group h_inner
    refine ⟨.primary (.parenthesized e), ?_, ?_, ?_⟩
    · rw [operandWords?, h_words]
      rfl
    · have h_written : ("(" ++ inner.expression ++ ")").toList =
          '(' :: (inner.expression.toList ++ [')']) := by
        simp
      rw [h_written]
      exact .symbol rfl (h_reads.append (.symbol rfl .nil)
        fun rest _ => Infix.endsNumber_symbol rfl rest)
    · rw [Node.height]
      exact Nat.succ_le_succ h_low
  | .element name as cs => by
    intro s s' term h_diceless h
    rw [operand] at h
    split at h
    -- The only tag among operands that has a value is a dice, and there is none.
    · rename_i h_name
      obtain rfl := Tag.ofName?_eq_some_iff.1 h_name
      exact absurd List.mem_cons_self (h_diceless as cs)
    · exact absurd (Prod.mk.inj h).1 nofun

end

end Formula.Prefix

/-! ## The infix reader on what is shown -/

namespace Formula.Infix

variable {σ : Type} {reader : Option (Source σ)}

/-- A text that is read as words is gathered as it is. -/
theorem gather_parse {raw : String} {words : List Token} (h : tokenize raw = .ok words) (s : σ) :
    (gather reader (Document.parse raw)).run s = (.ok (words, raw), s) := by
  -- What is read as words holds no bracket, so it is one text, or nothing if it is empty.
  rw [Document.parse_of_no_bracket fun c h_mem => (noBracket_of_tokens h c h_mem).1, Rules.flush]
  by_cases h_empty : raw.toList = []
  · obtain rfl := String.toList_eq_nil_iff.1 h_empty
    obtain rfl : words = [] := by
      rw [tokenize, h_empty, tokens] at h
      exact (Except.ok.inj h).symm
    rw [if_pos h_empty]
    rfl
  · rw [if_neg h_empty, String.ofList_toList, gather]
    refine Eval.run_bind_eq_ok.2 ⟨words, s, by rw [Eval.run_lift, h], ?_⟩
    refine Eval.run_bind_eq_ok.2 ⟨([], ""), s, rfl, ?_⟩
    dsimp only
    rw [List.append_nil, String.append_empty]
    rfl

/-- A text whose words have a derivation within the nesting limit has the value of the derivation,
    unless it divides by zero or leaves the finite numbers. -/
theorem evaluate_words {raw : String} {e : Expr} (h_words : tokenize raw = .ok e.words)
    (h_nesting : e.nesting ≤ nestingLimit) (s : σ) :
    (evaluate reader [.text raw]).run s =
      ((if e.isDefined then settle e.value else .error .divisionByZero).map (Result.mk raw),
        s) := by
  have h_value : (value e.words >>= settle) =
      if e.isDefined then settle e.value else .error .divisionByZero := by
    rw [value_words h_nesting]
    cases e.isDefined <;> rfl
  have h_shown : ∀ outcome : Except EvalError Float,
      (do return ⟨raw, ← liftExcept outcome⟩ : Eval σ Result).run s =
        (outcome.map (Result.mk raw), s) := by
    intro outcome
    cases outcome <;> rfl
  rw [evaluate, ExceptT.run_bind]
  simp only [bind, StateT.bind, gather_parse h_words s]
  rw [← h_value]
  exact h_shown _

theorem eq_nonFinite_of_settle {value : Float} {error : EvalError}
    (h : settle value = .error error) : error = .nonFinite := by
  unfold settle at h
  split at h
  · exact (Except.error.inj h).symm
  · split at h <;> exact absurd h nofun

/-- So there are only two errors that evaluating such a text can end in. -/
theorem evaluate_error {raw : String} {e : Expr} (h_words : tokenize raw = .ok e.words)
    (h_nesting : e.nesting ≤ nestingLimit) {s s' : σ} {error : EvalError}
    (h : (evaluate reader [.text raw]).run s = (.error error, s')) :
    error = .divisionByZero ∨ error = .nonFinite := by
  rw [evaluate_words h_words h_nesting] at h
  have h_outcome := (Prod.mk.inj h).1
  split at h_outcome
  · cases h_settle : settle e.value with
    | error other =>
      rw [h_settle] at h_outcome
      exact .inr (Except.error.inj h_outcome ▸ eq_nonFinite_of_settle h_settle)
    | ok value =>
      rw [h_settle] at h_outcome
      exact absurd h_outcome nofun
  · exact .inl (Except.error.inj h_outcome).symm

end Formula.Infix

/-! ## Formulas of a document -/

namespace Formula.Prefix

variable {σ : Type} {reader : Option (Source σ)}

/-- A formula of a document that has a value and in which there are no dice is shown as an infix
    formula: its words are those of its group, and it has a value in turn, unless it divides by zero
    or leaves the finite numbers. -/
theorem evaluate_translated {source : String} {attributes children : List Node}
    (h_mem : .element Tag.formula.name attributes children ∈ subtreesAll (Document.parse source))
    (h_diceless : Diceless attributes) {s s' : σ} {result : Result}
    (h : (evaluate reader attributes).run s = (.ok result, s')) :
    ∃ items words, attributes = [.group items] ∧ groupWords? items = some words ∧
      Infix.tokenize result.expression = .ok words ∧
        ∀ {τ : Type} (reader' : Option (Source τ)) (t t' : τ) (error : EvalError),
          (Infix.evaluate reader' [.text result.expression]).run t = (.error error, t') →
            error = .divisionByZero ∨ error = .nonFinite := by
  unfold evaluate at h
  split at h
  · rename_i items
    obtain ⟨e, h_words, h_reads, h_low⟩ := group_translated items _ _ _ h_diceless.group h
    have h_tokens := h_reads.tokenize
    -- The tag of the formula and its outermost group take two levels of those that there are.
    have h_height := Document.height_le_nestingLimit h_mem
    have h_nesting : e.nesting ≤ Infix.nestingLimit := by
      simp only [Node.height, heightAll, nestingLimit, Infix.nestingLimit] at h_height ⊢
      omega
    exact ⟨items, e.words, rfl, h_words, h_tokens, fun reader' t t' error h_error =>
      Infix.evaluate_error h_tokens h_nesting h_error⟩
  · exact absurd (Prod.mk.inj h).1 nofun

/-- A formula inside of another tag, with a group in it that has a negative number and one that has
    a single operand. -/
theorem evaluate_translated_nested :
    let source := "[b]x [calc (+ 1 (* -2 3.5) (/ 4))][/calc][/b]"
    let items : List Node := [.text "+", .text "1", .group [.text "*", .text "-2", .text "3.5"],
      .group [.text "/", .text "4"]]
    let result : Result := ⟨"1 + (-2 * 3.5) + (4)", Float.ofInt (-2)⟩
    .element "calc" [.group items] [] ∈ subtreesAll (Document.parse source) ∧
      Diceless [.group items] ∧
      (evaluate (none : Option (Source Unit)) [.group items]).run () = (.ok result, ()) ∧
      ∃ items' words, [Node.group items] = [.group items'] ∧ groupWords? items' = some words ∧
        Infix.tokenize result.expression = .ok words ∧
          ∀ {τ : Type} (reader' : Option (Source τ)) (t t' : τ) (error : EvalError),
            (Infix.evaluate reader' [.text result.expression]).run t = (.error error, t') →
              error = .divisionByZero ∨ error = .nonFinite := by
  intro source items result
  have h_mem : .element "calc" [.group items] [] ∈ subtreesAll (Document.parse source) := by
    have h_parse : Document.parse source =
        [.element "bld" [] [.text "x ", .element "calc" [.group items] []]] := by
      cbv
    rw [h_parse]
    simp [subtreesAll, Node.subtrees]
  have h_diceless : Diceless [.group items] := by
    simp [Diceless, subtreesAll, Node.subtrees, items]
  have h_value : (evaluate (none : Option (Source Unit)) [.group items]).run () =
      (.ok result, ()) := rfl
  exact ⟨h_mem, h_diceless, h_value, evaluate_translated h_mem h_diceless h_value⟩

end Formula.Prefix

end DiceMarkup
