/-
  DiceMarkup.Proofs.Preview

  A document as its author sees it before it is stored, and as its readers see
  it afterwards. The two views walk different trees: the preview rolls the dice
  of the document, and readers see the baked document, where the text of an
  infix formula has been read, baked, written and is read again. With a source
  that answers by a function of the bounds they agree, if the preview has
  nothing to report.

  Pieces:
  * `Eval.run_bind_eq_ok` — an evaluation in two parts
  * `Eval.outcome` — an evaluation without a state
  * `baked`, `bakedAll`, `bakedFormula` — baking without a state
  * `Formula.Prefix.evaluate_baked`, `Formula.Infix.evaluate_baked` — formulas
  * `bakedFormula_rereads` — a formula with a value is read again as it was baked
  * `Document.viewStored_bake` — whole documents
-/
import DiceMarkup.Proofs.Bounds
import DiceMarkup.Proofs.Nesting
import DiceMarkup.Proofs.Respelling
import DiceMarkup.Proofs.Shape
import DiceMarkup.View

namespace DiceMarkup

open Formula (Result)
open Node (keepsText)
open Rolling (Source)

/-! ## Evaluations in two parts -/

namespace Eval

variable {σ α β : Type}

/-- An evaluation in two parts has a value if both parts have one; the second part starts in the
    state that the first one leaves. -/
theorem run_bind_eq_ok {x : Eval σ α} {next : α → Eval σ β} {b : β} {s s' : σ} :
    (x >>= next).run s = (.ok b, s') ↔
      ∃ a between, x.run s = (.ok a, between) ∧ (next a).run between = (.ok b, s') := by
  rw [ExceptT.run_bind]
  cases h : x.run s with
  | mk result between =>
    simp only [bind, StateT.bind, h]
    constructor
    · intro h_next
      cases result with
      | ok a => exact ⟨a, between, rfl, h_next⟩
      | error error => exact absurd (Prod.mk.inj h_next).1 nofun
    · rintro ⟨a, between', h_first, h_next⟩
      obtain ⟨rfl, rfl⟩ := Prod.mk.inj h_first
      exact h_next

@[simp] theorem run_lift (result : Except EvalError α) (s : σ) :
    (liftExcept result : Eval σ α).run s = (result, s) := by
  cases result <;> rfl

end Eval

/-! ## Evaluations without a state -/

/-- What an evaluation comes to. -/
def Eval.outcome {α : Type} (evaluation : Eval Unit α) : Except EvalError α :=
  (evaluation.run ()).1

namespace Eval

variable {α β : Type}

@[simp] theorem outcome_pure (a : α) : outcome (pure a) = .ok a := rfl

@[simp] theorem outcome_throw (error : EvalError) :
    outcome (throw error : Eval Unit α) = .error error := rfl

@[simp] theorem outcome_lift (result : Except EvalError α) :
    outcome (liftExcept result) = result := by
  rw [outcome, run_lift]

theorem outcome_eq_ok {x : Eval Unit α} {a : α} : outcome x = .ok a ↔ x.run () = (.ok a, ()) :=
  ⟨fun h => Prod.ext h rfl, fun h => congrArg Prod.fst h⟩

theorem outcome_bind_eq_ok {x : Eval Unit α} {next : α → Eval Unit β} {b : β} :
    outcome (x >>= next) = .ok b ↔ ∃ a, outcome x = .ok a ∧ outcome (next a) = .ok b := by
  simp only [outcome_eq_ok, run_bind_eq_ok]
  exact ⟨fun ⟨a, _, h_both⟩ => ⟨a, h_both⟩, fun ⟨a, h_both⟩ => ⟨a, (), h_both⟩⟩

theorem outcome_map_eq_ok {x : Eval Unit α} {f : α → β} {b : β} :
    outcome (f <$> x) = .ok b ↔ ∃ a, outcome x = .ok a ∧ f a = b := by
  rw [map_eq_pure_bind, outcome_bind_eq_ok]
  simp

end Eval

/-! ## Baking without a state -/

section Baking

variable (f : Int64 → Int64 → Int64)

/-- The text of a formula with its dice rolled. -/
def bakedFormula (raw : String) : String :=
  (Baking.formula (Source.ofFunction f) raw ()).1.1

/-- A piece with its dice rolled; `raw` tells that a text is the text of a formula. -/
def baked (raw : Bool) (node : Node) : Node :=
  (Baking.piece (Source.ofFunction f) (Baking.formula (Source.ofFunction f)) raw node ()).1.1

def bakedAll (raw : Bool) (nodes : List Node) : List Node :=
  (Baking.pieces (Source.ofFunction f) (Baking.formula (Source.ofFunction f)) raw nodes ()).1.1

@[simp] theorem baked_text (value : String) : baked f false (.text value) = .text value := by
  rw [baked, Baking.piece]
  rfl

@[simp] theorem baked_formula (raw : String) :
    baked f true (.text raw) = .text (bakedFormula f raw) := by
  rw [baked, Baking.piece]
  rfl

@[simp] theorem baked_group (raw : Bool) (items : List Node) :
    baked f raw (.group items) = .group (bakedAll f false items) := by
  rw [baked, Baking.piece]
  rfl

theorem baked_dice (raw : Bool) (attributes children : List Node) :
    baked f raw (.element Tag.dice.name attributes children) =
      (Baking.dice (Source.ofFunction f) Tag.dice.name attributes children ()).1.1 := by
  rw [baked, Baking.piece, if_pos rfl]

theorem baked_element (raw : Bool) {name : String} (h_name : name ≠ Tag.dice.name)
    (attributes children : List Node) :
    baked f raw (.element name attributes children) =
      .element name (bakedAll f (keepsText name) attributes) (bakedAll f false children) := by
  rw [baked, Baking.piece, if_neg h_name]
  rfl

@[simp] theorem bakedAll_nil (raw : Bool) : bakedAll f raw [] = [] := rfl

@[simp] theorem bakedAll_cons (raw : Bool) (node : Node) (nodes : List Node) :
    bakedAll f raw (node :: nodes) = baked f raw node :: bakedAll f raw nodes := rfl

/-- A formula with a tag in it is baked as a document. -/
theorem bakedFormula_eq (raw : String) :
    bakedFormula f raw = if (Document.parse raw).any Node.isElement then
      Document.toText (bakedAll f false (Document.parse raw)) else raw := by
  rw [bakedFormula, Baking.formula_eq]
  split <;> rfl

theorem bake_eq (document : Document) :
    (document.bake (Source.ofFunction f) ()).1.1 = bakedAll f false document := by
  rw [Document.bake, Baking.nodes_eq]
  rfl

end Baking

/-! ## Dice -/

variable {f : Int64 → Int64 → Int64}

/-- A dice that is rolled for the preview holds the same roll once it is baked. -/
theorem baked_dice_of_resolve {as cs : List Node} {roll : Roll}
    (h : (Dice.resolve (some (Source.ofFunction f)) as cs).outcome = .ok roll) (raw : Bool) :
    ∃ value, baked f raw (.element Tag.dice.name as cs) = .element Tag.dice.name as [.text value] ∧
      Dice.classify as [.text value] = .ok (.stored roll) ∧ (cs = [.text value] ∨
        value = Numeral.writeInt64 roll.result) := by
  rw [baked_dice, Baking.dice]
  rcases Dice.resolve_run_eq_ok (Eval.outcome_eq_ok.1 h) with
    ⟨h_stored, -⟩ | ⟨source, min, max, h_source, h_fresh, rfl, -⟩
  · obtain ⟨-, value, rfl, -⟩ := Dice.classify_eq_stored h_stored
    rw [h_stored]
    exact ⟨value, rfl, h_stored, .inl rfl⟩
  · obtain rfl := Option.some.inj h_source
    obtain ⟨h_bounds, rfl⟩ := Dice.classify_eq_fresh h_fresh
    rw [h_fresh]
    exact ⟨_, rfl, Dice.classify_rolled h_bounds _, .inr rfl⟩

/-- A dice that holds a roll needs no source. -/
theorem resolve_stored {as cs : List Node} {roll : Roll}
    (h : Dice.classify as cs = .ok (.stored roll)) (source : Option (Source Unit)) :
    (Dice.resolve source as cs).outcome = .ok roll := by
  rw [Dice.resolve, h]
  rfl

/-! ## Prefix formulas -/

namespace Formula.Prefix

mutual

theorem group_baked : (items : List Node) → ∀ result,
    (group (some (Source.ofFunction f)) items).outcome = .ok result →
      (group (none : Option (Source Unit)) (bakedAll f false items)).outcome = .ok result
  | [] => fun _ h => absurd h (by simp [group])
  | .element .. :: _ => fun _ h => absurd h (by simp [group])
  | .group _ :: _ => fun _ h => absurd h (by simp [group])
  | .text written :: arguments => by
    have ih := operands_baked arguments
    intro result h
    rw [group] at h
    rw [bakedAll_cons, baked_text, group]
    cases h_operator : Operator.ofText? written with
    | none =>
      rw [h_operator] at h
      exact absurd h (by simp)
    | some operator =>
      rw [h_operator] at h
      obtain ⟨terms, h_terms, h_combine⟩ := Eval.outcome_bind_eq_ok.1 h
      exact Eval.outcome_bind_eq_ok.2 ⟨terms, ih terms h_terms, h_combine⟩

theorem operands_baked : (arguments : List Node) → ∀ terms,
    (operands (some (Source.ofFunction f)) arguments).outcome = .ok terms →
      (operands (none : Option (Source Unit)) (bakedAll f false arguments)).outcome = .ok terms
  | [] => fun _ h => h
  | argument :: arguments => by
    have ih_argument := operand_baked argument
    have ih_arguments := operands_baked arguments
    intro terms h
    rw [operands] at h
    rw [bakedAll_cons, operands]
    obtain ⟨term, h_term, h_rest⟩ := Eval.outcome_bind_eq_ok.1 h
    obtain ⟨others, h_others, h_terms⟩ := Eval.outcome_bind_eq_ok.1 h_rest
    refine Eval.outcome_bind_eq_ok.2 ⟨term, ih_argument term h_term, ?_⟩
    exact Eval.outcome_bind_eq_ok.2 ⟨others, ih_arguments others h_others, h_terms⟩

theorem operand_baked : (argument : Node) → ∀ term,
    (operand (some (Source.ofFunction f)) argument).outcome = .ok term →
      (operand (none : Option (Source Unit)) (baked f false argument)).outcome = .ok term
  | .text written => by
    intro term h
    rw [operand] at h
    rw [baked_text, operand]
    cases h_number : readNumber? written with
    | none =>
      rw [h_number] at h
      exact absurd h (by simp)
    | some value =>
      rw [h_number] at h
      exact h
  | .group items => by
    have ih := group_baked items
    intro term h
    rw [operand] at h
    rw [baked_group, operand]
    obtain ⟨inner, h_inner, h_term⟩ := Eval.outcome_bind_eq_ok.1 h
    exact Eval.outcome_bind_eq_ok.2 ⟨inner, ih inner h_inner, h_term⟩
  | .element name as cs => by
    intro term h
    rw [operand] at h
    split at h
    · rename_i h_name
      obtain rfl := Tag.ofName?_eq_some_iff.1 h_name
      obtain ⟨roll, h_roll, h_term⟩ := Eval.outcome_bind_eq_ok.1 h
      obtain ⟨value, h_baked, h_dice, -⟩ := baked_dice_of_resolve h_roll false
      rw [h_baked, operand, h_name]
      exact Eval.outcome_bind_eq_ok.2 ⟨roll, resolve_stored h_dice none, h_term⟩
    · exact absurd h (by simp)

end

theorem evaluate_baked {as : List Node} {result : Result}
    (h : (evaluate (some (Source.ofFunction f)) as).outcome = .ok result) :
    (evaluate (none : Option (Source Unit)) (bakedAll f false as)).outcome = .ok result := by
  unfold evaluate at h
  split at h
  · rename_i items
    rw [bakedAll_cons, baked_group, bakedAll_nil, evaluate]
    exact group_baked items result h
  · exact absurd h (by simp)

end Formula.Prefix

/-! ## Infix formulas -/

namespace Formula.Infix

/-- What stands in a formula with a value: texts that are read as words, and dice that are in
    order. -/
theorem gather_run_cons {σ : Type} {reader : Option (Source σ)} {node : Node} {nodes : List Node}
    {gathered : List Token × String} {s s' : σ}
    (h : (gather reader (node :: nodes)).run s = (.ok gathered, s')) :
    ∃ between others, (gather reader nodes).run between = (.ok others, s') ∧
      ((∃ written words, node = .text written ∧ tokenize written = .ok words ∧ between = s ∧
          gathered = (words ++ others.1, written ++ others.2)) ∨
        ∃ as cs roll, node = .element Tag.dice.name as cs ∧
          (Dice.resolve reader as cs).run s = (.ok roll, between) ∧
            gathered = (.number (Float.ofInt roll.result.toInt) :: others.1,
              roll.display ++ others.2)) := by
  cases node with
  | text written =>
    rw [gather] at h
    obtain ⟨words, between, h_words, h_rest⟩ := Eval.run_bind_eq_ok.1 h
    obtain ⟨others, _, h_others, h_end⟩ := Eval.run_bind_eq_ok.1 h_rest
    obtain ⟨h_gathered, rfl⟩ := Prod.mk.inj h_end
    have h_both : (tokenize written, s) = (.ok words, between) := by rw [← h_words, Eval.run_lift]
    obtain ⟨h_read, rfl⟩ := Prod.mk.inj h_both
    exact ⟨s, others, h_others,
      .inl ⟨written, words, rfl, h_read, rfl, (Except.ok.inj h_gathered).symm⟩⟩
  | group items =>
    rw [gather] at h
    exact absurd (Prod.mk.inj h).1 nofun
  | element name as cs =>
    rw [gather] at h
    split at h
    · rename_i h_name
      obtain rfl := Tag.ofName?_eq_some_iff.1 h_name
      obtain ⟨roll, between, h_roll, h_rest⟩ := Eval.run_bind_eq_ok.1 h
      obtain ⟨others, _, h_others, h_end⟩ := Eval.run_bind_eq_ok.1 h_rest
      obtain ⟨h_gathered, rfl⟩ := Prod.mk.inj h_end
      exact ⟨between, others, h_others,
        .inr ⟨as, cs, roll, rfl, h_roll, (Except.ok.inj h_gathered).symm⟩⟩
    · exact absurd (Prod.mk.inj h).1 nofun

/-- The words of a formula, and the text that is shown for it, are those of the baked pieces. -/
theorem gather_baked {nodes : List Node} {gathered : List Token × String}
    (h : (gather (some (Source.ofFunction f)) nodes).outcome = .ok gathered) :
    (gather (none : Option (Source Unit)) (bakedAll f false nodes)).outcome = .ok gathered := by
  -- A text is gathered as it is, and a dice by its roll, which it holds once it is baked.
  induction nodes generalizing gathered with
  | nil => exact h
  | cons node nodes ih =>
    rw [bakedAll_cons]
    obtain ⟨_, others, h_others, h_node⟩ := gather_run_cons (Eval.outcome_eq_ok.1 h)
    have h_rest := ih (Eval.outcome_eq_ok.2 h_others)
    rcases h_node with ⟨written, words, rfl, h_words, -, rfl⟩ | ⟨as, cs, roll, rfl, h_roll, rfl⟩
    · rw [baked_text, gather]
      refine Eval.outcome_bind_eq_ok.2 ⟨words, by rw [Eval.outcome_lift, h_words], ?_⟩
      exact Eval.outcome_bind_eq_ok.2 ⟨others, h_rest, rfl⟩
    · obtain ⟨value, h_baked, h_dice, -⟩ :=
        baked_dice_of_resolve (Eval.outcome_eq_ok.2 h_roll) false
      rw [h_baked, gather, Tag.ofName?_name]
      refine Eval.outcome_bind_eq_ok.2 ⟨roll, resolve_stored h_dice none, ?_⟩
      exact Eval.outcome_bind_eq_ok.2 ⟨others, h_rest, rfl⟩

/-! ### Reading a baked formula again -/

/-- The characters of a literal are digits and points. -/
theorem mem_literal {cs : List Char} {d : Char} (h : d ∈ cs.take (literalLength (literal cs))) :
    d.isDigit = true ∨ d = '.' := by
  have h_fraction : ∀ rest : List Char, d ∈ rest.takeWhile Char.isDigit → d.isDigit = true :=
    fun _ h_mem => List.mem_takeWhile_imp h_mem
  have h_digit := h_fraction cs
  have h_whole : cs = cs.takeWhile Char.isDigit ++ cs.dropWhile Char.isDigit :=
    List.takeWhile_append_dropWhile.symm
  unfold literal at h
  dsimp only at h
  rw [Bracket.drop_length_takeWhile] at h
  generalize cs.takeWhile Char.isDigit = whole at *
  split at h
  · rename_i rest h_rest
    rw [h_whole, h_rest, literalLength, Nat.add_assoc, List.take_length_add_append,
      List.take_succ_cons] at h
    rcases List.mem_append.1 h with h_mem | h_mem
    · exact .inl (h_digit h_mem)
    rcases List.mem_cons.1 h_mem with rfl | h_mem
    · exact .inr rfl
    · rw [← List.prefix_iff_eq_take.1 (List.takeWhile_prefix Char.isDigit)] at h_mem
      exact .inl (h_fraction rest h_mem)
  · rw [h_whole, literalLength, List.take_left] at h
    exact .inl (h_digit h)

/-- A text that is read as words holds no bracket. -/
theorem noBracket_of_tokens {found words : List Token} {cs : List Char}
    (h : tokens found cs = .ok words) : Rules.NoBracket cs := by
  -- No branch of `tokens` takes either of the two brackets.
  have h_brackets : ∀ d : Char, d = '[' ∨ d = ']' →
      Text.isBlank d = false ∧ Token.ofSymbol? d = none ∧ d.isDigit = false ∧ d ≠ '.' := by
    rintro d (rfl | rfl) <;> decide
  have h_other : ∀ d : Char, ¬ (d = '[' ∨ d = ']') → d ≠ '[' ∧ d ≠ ']' :=
    fun _ h_or => not_or.1 h_or
  fun_induction tokens found cs with
  | case1 => exact fun _ h_mem => absurd h_mem (by simp)
  | case2 found c cs h_blank ih =>
    intro d h_mem
    rcases List.mem_cons.1 h_mem with rfl | h_rest
    · exact h_other _ fun h_or => by simp [h_brackets _ h_or] at h_blank
    · exact ih h d h_rest
  | case3 found c cs _ token h_symbol ih =>
    intro d h_mem
    rcases List.mem_cons.1 h_mem with rfl | h_rest
    · exact h_other _ fun h_or => by simp [h_brackets _ h_or] at h_symbol
    · exact ih h d h_rest
  -- A number takes the longest run that is one; the words go on behind it.
  | case5 found c cs _ _ h_literal written whole fraction _ _ ih =>
    intro d h_mem
    rw [← List.take_append_drop (literalLength written - 1) cs] at h_mem
    rcases List.mem_cons.1 h_mem with rfl | h_inside
    · exact h_other _ fun h_or => by simp [h_brackets _ h_or] at h_literal
    rcases List.mem_append.1 h_inside with h_taken | h_rest
    · have h_char : d.isDigit = true ∨ d = '.' := by
        have h_take : d ∈ (c :: cs).take (literalLength written) := by
          generalize literalLength written = length at h_taken
          cases length with
          | zero => exact absurd h_taken (by simp)
          | succ length => exact List.mem_cons_of_mem _ h_taken
        exact mem_literal h_take
      exact h_other _ fun h_or => by simp [h_brackets _ h_or] at h_char
    · exact ih h d h_rest
  | case4 | case6 => exact absurd h (by simp)

/-- A dice with whole numbers is canonical, and nothing stands in one another in it but words. -/
theorem canonical_dice {as : List Node} {value : String} {roll : Roll}
    (h_dice : Dice.classify as [.text value] = .ok (.stored roll))
    (h_result : Bracket.IsResult value.toList) :
    Node.canonical .child (.element Tag.dice.name as [.text value]) = true ∧
      Node.height (.element Tag.dice.name as [.text value]) = 1 := by
  -- The bounds are two words, since whole numbers have neither blanks nor brackets.
  obtain ⟨h_bounds, -⟩ := Dice.classify_eq_stored h_dice
  obtain ⟨lower, upper, rfl, h_lower, h_upper, -⟩ := Dice.bounds_eq_ok h_bounds
  have h_first := Numeral.isWord_of_readInt64? h_lower
  have h_second := Numeral.isWord_of_readInt64? h_upper
  have h_stored := isResult_iff.2 h_result
  constructor
  · rw [Node.canonical, Tag.ofName?_name]
    simp [Node.canonicalAll, Node.canonical, Place.admits, h_first, h_second, Node.isStored,
      h_stored, Tag.rawAttribute, Tag.kind, Tag.storesResult]
  · simp [Node.height, Node.heightAll]

/-- A text that is read as words may be a child. -/
theorem admits_of_tokenize {written : String} {words : List Token}
    (h : tokenize written = .ok words) (h_some : written.toList ≠ []) :
    Place.child.admits written.toList = true := by
  have h_quiet := Rules.isQuiet_of_no_bracket fun c h_mem => (noBracket_of_tokens h c h_mem).1
  rw [Place.admits, h_quiet, Bool.and_true]
  simpa using h_some

theorem isPlain_of_tokenize {written : String} {words : List Token}
    (h : tokenize written = .ok words) : (Node.text written).isPlain = true := by
  rw [Node.isPlain, bne_iff_ne]
  intro h_head
  exact (noBracket_of_tokens h '[' (List.mem_of_mem_head? h_head)).1 rfl

theorem gather_cons_eq_ok {reader : Option (Source Unit)} {node : Node} {nodes : List Node}
    {gathered : List Token × String} (h : (gather reader (node :: nodes)).outcome = .ok gathered) :
    (∃ others, (gather reader nodes).outcome = .ok others) ∧
      ((∃ written words, node = .text written ∧ tokenize written = .ok words) ∨
        ∃ as cs roll, node = .element Tag.dice.name as cs ∧
          (Dice.resolve reader as cs).outcome = .ok roll) := by
  obtain ⟨_, others, h_others, h_node⟩ := gather_run_cons (Eval.outcome_eq_ok.1 h)
  refine ⟨⟨others, Eval.outcome_eq_ok.2 h_others⟩, ?_⟩
  rcases h_node with ⟨written, words, rfl, h_words, -⟩ | ⟨as, cs, roll, rfl, h_roll, -⟩
  · exact .inl ⟨written, words, rfl, h_words⟩
  · exact .inr ⟨as, cs, roll, rfl, Eval.outcome_eq_ok.2 h_roll⟩

/-- A text does not follow a text in a formula with a value. -/
theorem apart_cons_of_gather {written : String} {words : List Token} {nodes : List Node}
    {gathered : List Token × String} (h_words : tokenize written = .ok words)
    (h : (gather (some (Source.ofFunction f)) nodes).outcome = .ok gathered)
    (h_apart : (Node.text written :: nodes).IsChain fun a b => (a.isPlain && b.isPlain) = false) :
    Node.apart (.text written :: bakedAll f false nodes) = Node.apart (bakedAll f false nodes) := by
  cases nodes with
  | nil => rfl
  | cons node nodes =>
    have h_pair := (List.isChain_cons_cons.1 h_apart).1
    rw [isPlain_of_tokenize h_words, Bool.true_and] at h_pair
    rcases (gather_cons_eq_ok h).2 with ⟨next, others, rfl, h_next⟩ | ⟨as, cs, roll, rfl, h_roll⟩
    · rw [isPlain_of_tokenize h_next] at h_pair
      exact absurd h_pair (by decide)
    · obtain ⟨value, h_baked, -⟩ := baked_dice_of_resolve h_roll false
      rw [bakedAll_cons, h_baked]
      rfl

/-- The pieces of a formula with a value are canonical once they are baked. -/
theorem canonical_of_gather {nodes : List Node} {gathered : List Token × String}
    (h : (gather (some (Source.ofFunction f)) nodes).outcome = .ok gathered)
    (h_collected : Node.Collected nodes)
    (h_results : ∀ as cs, Node.element Tag.dice.name as cs ∈ nodes →
      cs = [] ∨ ∃ value : String, Bracket.IsResult value.toList ∧ cs = [.text value]) :
    Node.canonicalAll .child (bakedAll f false nodes) = true ∧
      Node.apart (bakedAll f false nodes) = true ∧ Node.heightAll (bakedAll f false nodes) ≤ 1 := by
  induction nodes generalizing gathered with
  | nil => exact ⟨rfl, rfl, Nat.zero_le _⟩
  | cons node nodes ih =>
    obtain ⟨⟨others, h_others⟩, h_node⟩ := gather_cons_eq_ok h
    have h_rest := h_collected.tail
    obtain ⟨ih_canonical, ih_apart, ih_height⟩ :=
      ih h_others h_rest fun as cs h_mem => h_results as cs (List.mem_cons_of_mem _ h_mem)
    rw [bakedAll_cons]
    rcases h_node with ⟨written, words, rfl, h_words⟩ | ⟨as, cs, roll, rfl, h_roll⟩
    · have h_admits := admits_of_tokenize h_words (h_collected.nonempty _ List.mem_cons_self)
      rw [baked_text]
      refine ⟨?_, ?_, ?_⟩
      · rw [Node.canonicalAll, Node.canonical, h_admits, ih_canonical]
        rfl
      · rw [apart_cons_of_gather h_words h_others h_collected.apart, ih_apart]
      · rw [Node.heightAll, Node.height]
        omega
    -- The result is one that was read, with its closer, or one that has just been written.
    · obtain ⟨value, h_baked, h_dice, h_value⟩ := baked_dice_of_resolve h_roll false
      have h_result : Bracket.IsResult value.toList := by
        rcases h_value with rfl | rfl
        · rcases h_results as _ List.mem_cons_self with h_nil | ⟨stored, h_stored, h_same⟩
          · exact absurd h_nil (by simp)
          · obtain rfl := Node.text.inj (List.cons.inj h_same).1
            exact h_stored
        · exact Numeral.isResult_writeInt64 roll.result
      obtain ⟨h_canonical, h_height⟩ := canonical_dice h_dice h_result
      rw [h_baked]
      refine ⟨?_, ih_apart, ?_⟩
      · rw [Node.canonicalAll, h_canonical, ih_canonical]
        rfl
      · rw [Node.heightAll, h_height]
        omega

/-- A formula without dice is left as it is. -/
theorem bakedAll_eq_of_gather {nodes : List Node} {gathered : List Token × String}
    (h : (gather (some (Source.ofFunction f)) nodes).outcome = .ok gathered)
    (h_none : nodes.any Node.isElement = false) : bakedAll f false nodes = nodes := by
  induction nodes generalizing gathered with
  | nil => rfl
  | cons node nodes ih =>
    obtain ⟨⟨others, h_others⟩, h_node⟩ := gather_cons_eq_ok h
    rw [List.any_cons, Bool.or_eq_false_iff] at h_none
    rcases h_node with ⟨written, words, rfl, -⟩ | ⟨as, cs, roll, rfl, -⟩
    · rw [bakedAll_cons, baked_text, ih h_others h_none.2]
    · exact absurd h_none.1 (by simp [Node.isElement])

/-- A formula with a value is read as its baked pieces once it has been baked and written. -/
theorem parse_bakedFormula {raw : String} {gathered : List Token × String}
    (h : (gather (some (Source.ofFunction f)) (Document.parse raw)).outcome = .ok gathered) :
    Document.parse (bakedFormula f raw) = bakedAll f false (Document.parse raw) := by
  rw [bakedFormula_eq]
  split
  -- With a tag in it the formula is written anew, and its pieces have but one reading.
  · have h_spells := Reader.run_spells .remembering raw.toList
    obtain ⟨h_canonical, h_apart, h_height⟩ := canonical_of_gather h (Document.collected raw)
      fun as cs h_mem => h_spells.result_of_mem h_mem
    have h_document : Document.canonical (bakedAll f false (Document.parse raw)) = true := by
      rw [Document.canonical, h_canonical, h_apart, Bool.true_and, Bool.true_and, decide_eq_true_eq]
      exact h_height.trans (by decide)
    obtain ⟨h_pieces, h_assemble⟩ := Rules.piecesAt_toText h_document
    rw [Rules.parse_eq h_pieces, h_assemble]
  · rename_i h_none
    rw [bakedAll_eq_of_gather h (by simpa using h_none)]

theorem evaluate_baked {as : List Node} {result : Result}
    (h : (evaluate (some (Source.ofFunction f)) as).outcome = .ok result) :
    (evaluate (none : Option (Source Unit)) (bakedAll f true as)).outcome = .ok result := by
  unfold evaluate at h
  split at h
  · rename_i raw
    obtain ⟨gathered, h_gathered, h_value⟩ := Eval.outcome_bind_eq_ok.1 h
    rw [bakedAll_cons, baked_formula, bakedAll_nil, evaluate, parse_bakedFormula h_gathered]
    exact Eval.outcome_bind_eq_ok.2 ⟨gathered, gather_baked h_gathered, h_value⟩
  · exact absurd h (by simp)

end Formula.Infix

/-! ## Documents -/

namespace View

/-- A piece is shown by its value, or it is reported. -/
theorem valueOf_eq_iff {tag : Tag} {piece : Node} {evaluation : Eval Unit View} {shown : View} :
    (valueOf tag piece evaluation ()).1 = (shown, []) ↔ evaluation.outcome = .ok shown := by
  unfold valueOf Eval.outcome
  cases h : evaluation.run () with
  | mk result state =>
    cases result with
    | ok value => simp [bind, StateT.bind, pure, StateT.pure, h]
    | error error => simp [bind, StateT.bind, pure, StateT.pure, h]

/-- A dice or a formula that has a value is baked to one with the same value. -/
theorem evaluation?_baked (name : String) (as cs : List Node) :
    (name ≠ Tag.dice.name ∧ keepsText name = false ∧
        ∀ (source : Option (Source Unit)) as' cs', evaluation? source name as' cs' = none) ∨
      ∃ tag asking, evaluation? (some (Source.ofFunction f)) name as cs = some (tag, asking) ∧
        ∀ shown, asking.outcome = .ok shown → ∃ as' cs' unasking,
          baked f false (.element name as cs) = .element name as' cs' ∧
            evaluation? (none : Option (Source Unit)) name as' cs' = some (tag, unasking) ∧
              unasking.outcome = .ok shown := by
  cases h_tag : Tag.ofName? name with
  | none =>
    refine .inl ⟨?_, by rw [keepsText, h_tag]; rfl,
      fun source as' cs' => by rw [evaluation?, h_tag]⟩
    rintro rfl
    exact absurd h_tag (by simp)
  | some tag =>
    obtain rfl := Tag.ofName?_eq_some_iff.1 h_tag
    cases tag with
    | dice =>
      refine .inr ⟨_, _, by rw [evaluation?, h_tag], fun shown h_shown => ?_⟩
      obtain ⟨roll, h_roll, rfl⟩ := Eval.outcome_map_eq_ok.1 h_shown
      obtain ⟨value, h_baked, h_dice, -⟩ := baked_dice_of_resolve h_roll false
      exact ⟨_, _, _, h_baked, by rw [evaluation?, h_tag],
        Eval.outcome_map_eq_ok.2 ⟨roll, resolve_stored h_dice none, rfl⟩⟩
    | formula =>
      refine .inr ⟨_, _, by rw [evaluation?, h_tag], fun shown h_shown => ?_⟩
      obtain ⟨result, h_result, rfl⟩ := Eval.outcome_map_eq_ok.1 h_shown
      have h_keeps : keepsText Tag.formula.name = false := by decide
      exact ⟨_, _, _, baked_element f false (by decide) as cs, by rw [evaluation?, h_tag, h_keeps],
        Eval.outcome_map_eq_ok.2 ⟨result, Formula.Prefix.evaluate_baked h_result, rfl⟩⟩
    | infixFormula =>
      refine .inr ⟨_, _, by rw [evaluation?, h_tag], fun shown h_shown => ?_⟩
      obtain ⟨result, h_result, rfl⟩ := Eval.outcome_map_eq_ok.1 h_shown
      have h_keeps : keepsText Tag.infixFormula.name = true := by decide
      exact ⟨_, _, _, baked_element f false (by decide) as cs, by rw [evaluation?, h_tag, h_keeps],
        Eval.outcome_map_eq_ok.2 ⟨result, Formula.Infix.evaluate_baked h_result, rfl⟩⟩
    -- All other tags are shown with what is in them.
    | _ =>
      exact .inl ⟨by decide, by decide, fun source as' cs' => by rw [evaluation?, h_tag]⟩

section Parts

variable (source : Option (Source Unit))

theorem ofNode_group (items : List Node) :
    (ofNode source (.group items) ()).1 =
      (.group (ofNodes source items ()).1.1, (ofNodes source items ()).1.2) := by
  rw [ofNode]
  rfl

theorem ofNode_element {name : String} {as cs : List Node}
    (h : evaluation? source name as cs = none) :
    (ofNode source (.element name as cs) ()).1 =
      (.element name (ofNodes source as ()).1.1 (ofNodes source cs ()).1.1,
        (ofNodes source as ()).1.2 ++ (ofNodes source cs ()).1.2) := by
  rw [ofNode, h]
  rfl

/-- A dice or a formula is shown as a value, with nothing reported, just if it has that value. -/
theorem ofNode_evaluated {name : String} {as cs : List Node} {tag : Tag}
    {evaluation : Eval Unit View} {shown : View}
    (h : evaluation? source name as cs = some (tag, evaluation)) :
    (ofNode source (.element name as cs) ()).1 = (shown, []) ↔ evaluation.outcome = .ok shown := by
  rw [ofNode, h]
  exact valueOf_eq_iff

theorem ofNodes_cons (node : Node) (nodes : List Node) :
    (ofNodes source (node :: nodes) ()).1 =
      ((ofNode source node ()).1.1 :: (ofNodes source nodes ()).1.1,
        (ofNode source node ()).1.2 ++ (ofNodes source nodes ()).1.2) := by
  rw [ofNodes]
  rfl

end Parts

mutual

theorem ofNode_baked : (node : Node) → ∀ shown,
    (ofNode (some (Source.ofFunction f)) node ()).1 = (shown, []) →
      (ofNode (none : Option (Source Unit)) (baked f false node) ()).1 = (shown, [])
  | .text value => by
    intro shown h
    rw [baked_text]
    exact h
  | .group items => by
    have ih := ofNodes_baked items
    intro shown h
    rw [ofNode_group] at h
    obtain ⟨rfl, h_reports⟩ := Prod.mk.inj h
    rw [baked_group, ofNode_group, ih _ (Prod.ext rfl h_reports)]
  | .element name as cs => by
    have ih_attributes := ofNodes_baked as
    have ih_children := ofNodes_baked cs
    intro shown h
    rcases evaluation?_baked (f := f) name as cs with ⟨h_dice, h_keeps, h_none⟩ |
      ⟨tag, asking, h_some, h_baked⟩
    · rw [ofNode_element _ (h_none _ _ _)] at h
      obtain ⟨rfl, h_reports⟩ := Prod.mk.inj h
      obtain ⟨h_attributes, h_children⟩ := List.append_eq_nil_iff.1 h_reports
      rw [baked_element f false h_dice, h_keeps, ofNode_element _ (h_none _ _ _),
        ih_attributes _ (Prod.ext rfl h_attributes), ih_children _ (Prod.ext rfl h_children)]
      rfl
    -- A piece that is evaluated is shown by its value alone, so that nothing in it is shown twice.
    · obtain ⟨as', cs', unasking, h_element, h_some', h_shown⟩ :=
        h_baked shown ((ofNode_evaluated _ h_some).1 h)
      rw [h_element]
      exact (ofNode_evaluated _ h_some').2 h_shown

theorem ofNodes_baked : (nodes : List Node) → ∀ shown,
    (ofNodes (some (Source.ofFunction f)) nodes ()).1 = (shown, []) →
      (ofNodes (none : Option (Source Unit)) (bakedAll f false nodes) ()).1 = (shown, [])
  | [] => fun _ h => h
  | node :: nodes => by
    have ih_node := ofNode_baked node
    have ih_nodes := ofNodes_baked nodes
    intro shown h
    rw [ofNodes_cons] at h
    obtain ⟨rfl, h_reports⟩ := Prod.mk.inj h
    obtain ⟨h_node, h_nodes⟩ := List.append_eq_nil_iff.1 h_reports
    rw [bakedAll_cons, ofNodes_cons, ih_node _ (Prod.ext rfl h_node),
      ih_nodes _ (Prod.ext rfl h_nodes)]
    rfl

end

end View

/-- For a source that answers by a function of the bounds: a document whose preview has nothing to
    report is shown as in the preview once it is baked. -/
theorem Document.viewStored_bake {document : Document} {f : Int64 → Int64 → Int64}
    {shown : List View}
    (h : (document.view (some (Source.ofFunction f)) ()).1 = (shown, [])) :
    (document.bake (Source.ofFunction f) ()).1.1.viewStored = (shown, []) := by
  rw [bake_eq]
  exact View.ofNodes_baked document shown h

/-- A fresh dice whose answer is beyond its bounds and a stored one, each in another tag and in a
    formula of each kind. -/
theorem Document.viewStored_bake_loaded :
    let f : Int64 → Int64 → Int64 := fun _ max => max + 5
    let dice : Node := .element "dice" [.text "1", .text "+6"] []
    let stored : Node := .element "dice" [.text "-2", .text "8"] [.text "3"]
    let infixFormula : Node := .element "calcn" [.text "2*[dice 1 4] - [DICE 1 8]3[/dice]"] []
    let document : Document := [.text "a", .element "bld" [] [dice],
      .element "calc" [.group [.text "+", .text "1", dice, stored]] [],
      .element "clr" [.group [stored]] [infixFormula]]
    let shown : List View := [.text "a", .element "bld" [] [.dice ⟨1, 6, 6⟩],
      .formula ⟨"1 + [1~6]6 + [-2~8]3", Float.ofInt 10⟩,
      .element "clr" [.group [.dice ⟨-2, 8, 3⟩]]
        [.formula ⟨"2*[1~4]4 - [1~8]3", Float.ofInt 5⟩]]
    (document.view (some (Source.ofFunction f)) ()).1 = (shown, []) ∧
      (document.bake (Source.ofFunction f) ()).1.1.viewStored = (shown, []) := by
  intro f dice stored infixFormula document shown
  have h_bold : (View.ofNode (some (Source.ofFunction f)) (.element "bld" [] [dice]) ()).1 =
      (.element "bld" [] [.dice ⟨1, 6, 6⟩], []) := by
    cbv
  have h_group : (View.ofNodes (some (Source.ofFunction f)) [.group [stored]] ()).1 =
      ([.group [.dice ⟨-2, 8, 3⟩]], []) := by
    cbv
  have h_prefix : (View.ofNode (some (Source.ofFunction f))
      (.element "calc" [.group [.text "+", .text "1", dice, stored]] []) ()).1 =
        (.formula ⟨"1 + [1~6]6 + [-2~8]3", Float.ofInt 10⟩, []) := by
    refine (View.ofNode_evaluated _ rfl).2 (Eval.outcome_map_eq_ok.2 ⟨_, ?_, rfl⟩)
    decide +kernel
  have h_infix : (View.ofNode (some (Source.ofFunction f)) infixFormula ()).1 =
      (.formula ⟨"2*[1~4]4 - [1~8]3", Float.ofInt 5⟩, []) := by
    have h_parse : Document.parse "2*[dice 1 4] - [DICE 1 8]3[/dice]" =
        [.text "2*", .element "dice" [.text "1", .text "4"] [], .text " - ",
          .element "dice" [.text "1", .text "8"] [.text "3"]] := by
      cbv
    refine (View.ofNode_evaluated _ rfl).2 (Eval.outcome_map_eq_ok.2 ⟨_, ?_, rfl⟩)
    rw [Formula.Infix.evaluate, h_parse]
    decide +kernel
  have h_clear : (View.ofNode (some (Source.ofFunction f))
      (.element "clr" [.group [stored]] [infixFormula]) ()).1 =
        (.element "clr" [.group [.dice ⟨-2, 8, 3⟩]]
          [.formula ⟨"2*[1~4]4 - [1~8]3", Float.ofInt 5⟩], []) := by
    rw [View.ofNode_element _ rfl, h_group, View.ofNodes_cons, h_infix]
    rfl
  have h_preview : (document.view (some (Source.ofFunction f)) ()).1 = (shown, []) := by
    simp only [document, Document.view, View.ofNodes_cons, h_bold, h_prefix, h_clear]
    rfl
  exact ⟨h_preview, Document.viewStored_bake h_preview⟩

end DiceMarkup
